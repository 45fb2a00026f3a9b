import FusionMlx.Cache.StandingCalls

/-!
# References that a lookup takes and a release gives back

A lookup that finds anything enters a table with the manager and takes one
reference for each of its blocks. The block-aware cache keeps no entry of its
own for it, so that neither `release_cache` nor `clear_request_entry` gives
anything back. Of the radix cache only `clear_request_entry` does.
-/
namespace FusionMlx.FetchReferences

open BlockHashing BlockPool ResourceLedger PoolRefinement LookupRefinement
open OwnedBlocks FreeRefinement PagedCacheManager ManagerRuns PoolInvariant ReferenceBooks StandingCalls
open PrefixCache PrefixCache.BlockAwarePrefixCache

variable {κ : Type} {P : Params κ} {m : Manager} {s : Pool} {a : Ledger Nat BlockHash}
variable {c : BlockAwarePrefixCache} {tokens : List Int}

def Roomy (P : Params κ) (s : Pool) : Prop :=
  s.freeBlockQueue.numFreeBlocks ≠ 0 ∨ s.currentAllocatedCount < P.maxBlocks

def Asks (P : Params κ) (tokens : List Int) : Prop :=
  P.enableCaching = true ∧ P.blockSize ≠ 0 ∧ P.blockSize ≤ tokens.length

def Unsorted (args : KeyArgs κ) : Prop :=
  args.extraKeyRanges ≠ [] ∧ rangesSorted args.extraKeyRanges = false

def FirstFound (P : Params κ) (s : Pool) (ssd : Option (BlockHash → Bool)) (tokens : List Int)
    (args : KeyArgs κ) : Prop :=
  ∃ salt, resolveBlockExtraKeys P.blockSize args = .ok salt ∧
    (s.cachedBlockHashToBlock.getBlock (P.hash none (blockTokens P.blockSize tokens 0) salt) ≠ none ∨
      (ssd.any (fun hasBlock => hasBlock (P.hash none (blockTokens P.blockSize tokens 0) salt)) = true ∧
        Roomy P s))

theorem resolve_sorted {args : KeyArgs κ} (h : ¬ Unsorted args) (n : Nat) :
    ∃ salt, resolveBlockExtraKeys n args = .ok salt := by
  unfold resolveBlockExtraKeys
  by_cases hr : args.extraKeyRanges = []
  · simp only [hr, ne_eq, not_true_eq_false, if_false]
    split
    · exact ⟨_, rfl⟩
    · exact ⟨_, rfl⟩
  · have hs : rangesSorted args.extraKeyRanges = true := by
      by_contra hs
      exact h ⟨hr, Bool.not_eq_true _ |>.mp hs⟩
    simp only [hr, hs, ne_eq, not_false_eq_true, if_true]
    exact ⟨_, rfl⟩

theorem resolve_unsorted {args : KeyArgs κ} (h : Unsorted args) (n : Nat) :
    resolveBlockExtraKeys n args = .error .assertionError := by
  simp only [resolveBlockExtraKeys, h.1, h.2, ne_eq, not_false_eq_true, if_true]
  rfl

theorem allocate_full (h : ¬ Roomy P s) : s.allocateBlockInternal P = (.ok none, s) := by
  rw [Roomy, not_or, not_not] at h
  have hzero : P.maxBlocks - s.currentAllocatedCount = 0 := by omega
  simp only [Pool.allocateBlockInternal, h.1, if_true, hzero, Nat.min_zero, Pool.growBlocks]

theorem allocatePopped_some (s : Pool) : (s.allocatePopped P).1 ≠ .ok none := by
  unfold Pool.allocatePopped
  split <;> exact nofun

theorem allocate_roomy (h : Refines P s a) (hs : a.Sound 0) (hroom : Roomy P s) :
    ∃ b, (s.allocateBlockInternal P).1 = .ok (some b) := by
  obtain ⟨a', -, -, ⟨hnone, -⟩ | ⟨b, hb, -⟩⟩ := allocateBlockInternal_refines h hs (R := Rules.any)
  · exfalso
    unfold Pool.allocateBlockInternal at hnone
    split at hnone
    · next hz =>
      have hlt : s.currentAllocatedCount < P.maxBlocks := hroom.resolve_left (not_not_intro hz)
      have hmake : (s.growBlocks P (min 256 (P.maxBlocks - s.currentAllocatedCount))).1 ≠ 0 := by
        have hne : min (min 256 (P.maxBlocks - s.currentAllocatedCount))
            (P.maxBlocks - s.currentAllocatedCount) ≠ 0 := by omega
        simp only [Pool.growBlocks, if_neg hne]
        exact hne
      simp only [hmake, if_false] at hnone
      exact allocatePopped_some _ hnone
    · exact allocatePopped_some _ hnone
  · exact ⟨b, hb⟩

/-- A lookup of one digest never raises. -/
theorem lookup_ok (h : Refines P s a) (hs : a.Sound 0) (ssd : Option (BlockHash → Bool))
    (claim : Bool) (k : BlockHash) (parent : Option BlockHash) :
    ∃ found, (s.lookupOrRestore P ssd claim k parent).1 = .ok found := by
  unfold Pool.lookupOrRestore
  split
  · exact ⟨_, rfl⟩
  · split
    · obtain ⟨a', -, -, hcase⟩ := allocateBlockInternal_refines h hs (R := Rules.any)
      generalize s.allocateBlockInternal P = q at hcase
      obtain ⟨answer, t⟩ := q
      rcases hcase with ⟨hb, -⟩ | ⟨b, hb, -⟩
      · cases hb
        exact ⟨_, rfl⟩
      · cases hb
        exact ⟨_, rfl⟩
    · exact ⟨_, rfl⟩

theorem computedLoop_ok {args : KeyArgs κ} (hargs : ¬ Unsorted args)
    (ssd : Option (BlockHash → Bool)) (claim : Bool) (tokens : List Int) (n i : Nat)
    (parent : Option BlockHash) (restored : List Nat) (h : Refines P s a) (hs : a.Sound 0) :
    ∃ bs, (Pool.computedLoop P ssd claim tokens args n i parent restored s).1 = .ok bs := by
  induction n generalizing i parent restored s a with
  | zero => exact ⟨[], rfl⟩
  | succ n ih =>
    obtain ⟨salt, hsalt⟩ := resolve_sorted hargs ((i + 1) * P.blockSize)
    rw [Pool.computedLoop]
    simp only [hsalt]
    obtain ⟨found, hfound⟩ := lookup_ok h hs ssd claim
      (P.hash parent (blockTokens P.blockSize tokens i) salt) parent
    obtain ⟨a₁, h₁, hm₁, -, hlisted⟩ := lookupOrRestore_refines h hs (R := Rules.any) ssd claim
      (P.hash parent (blockTokens P.blockSize tokens i) salt) parent
    have hs₁ := hm₁.sound hs
    generalize s.lookupOrRestore P ssd claim
      (P.hash parent (blockTokens P.blockSize tokens i) salt) parent = q at hfound h₁ hlisted
    obtain ⟨answer, t⟩ := q
    obtain rfl : answer = .ok found := hfound
    obtain ⟨b?, again⟩ := found
    cases b? with
    | none => exact ⟨[], rfl⟩
    | some b =>
      have hheld : b ∈ a₁.held := (hs₁.listed _ b (hlisted b again rfl).1).1
      obtain ⟨a₂, h₂, hs₂⟩ : ∃ a₂, Refines P
          (if claim = true ∧ b ∉ (if again = true then b :: restored else restored) then
            t.addRef P b else t) a₂ ∧ a₂.Sound 0 := by
        by_cases hclaim : claim = true ∧ b ∉ (if again = true then b :: restored else restored)
        · rw [if_pos hclaim]
          obtain ⟨hr₂, hmv⟩ := addRef_refines h₁ hs₁ hheld (R := Rules.any)
          exact ⟨_, hr₂, hmv.sound hs₁⟩
        · rw [if_neg hclaim]
          exact ⟨a₁, h₁, hs₁⟩
      obtain ⟨bs, hbs⟩ := ih (i + 1) (some (P.hash parent (blockTokens P.blockSize tokens i) salt))
        (if again = true then b :: restored else restored)
        (h₂.bump (fun t => { t with hits := t.hits + 1 })) hs₂
      dsimp only
      generalize Pool.computedLoop P ssd claim tokens args n (i + 1) _ _ _ = q at hbs
      obtain ⟨rest, u⟩ := q
      obtain rfl : rest = .ok bs := hbs
      exact ⟨b :: bs, rfl⟩

theorem one_block (P : Params κ) (tokens : List Int) (h : Asks P tokens) :
    ∃ n, tokens.length / P.blockSize = n + 1 := by
  have hpos : 0 < tokens.length / P.blockSize :=
    Nat.div_pos h.2.2 (Nat.pos_of_ne_zero h.2.1)
  exact ⟨tokens.length / P.blockSize - 1, by omega⟩

/-- Unsorted ranges raise before anything is touched. -/
theorem lookup_raises {args : KeyArgs κ} (hask : Asks P tokens) (hargs : Unsorted args)
    (ssd : Option (BlockHash → Bool)) (m : Manager) :
    m.getComputedBlocks P ssd tokens args true = (.error .assertionError, m) := by
  obtain ⟨n, hn⟩ := one_block P tokens hask
  have hloop : m.pool.getComputedBlocks P ssd tokens args true = (.error .assertionError, m.pool) := by
    simp only [Pool.getComputedBlocks, hn, Pool.computedLoop, resolve_unsorted hargs, hask.1, hask.2.1,
      not_true_eq_false, or_self, if_false]
  simp only [Manager.getComputedBlocks, hask.1, hask.2.1, not_true_eq_false, or_self, if_false,
    locked_eq, hloop, Manager.thenFlush]

/-- A first block that is found makes the lookup return blocks. -/
theorem lookup_finds {args : KeyArgs κ} (h : Standing P m) (hask : Asks P tokens)
    (hargs : ¬ Unsorted args) (ssd : Option (BlockHash → Bool))
    (hfound : FirstFound P m.pool ssd tokens args) :
    ∃ b bs n, (m.getComputedBlocks P ssd tokens args true).1 = .ok (b :: bs, n) := by
  obtain ⟨a, hst⟩ := h.stands
  obtain ⟨n, hn⟩ := one_block P tokens hask
  obtain ⟨bs, hbs⟩ := computedLoop_ok hargs ssd true tokens (tokens.length / P.blockSize) 0 none []
    hst.refines hst.sound
  have hcons : ∃ b rest, bs = b :: rest := by
    obtain ⟨salt, hsalt, hfirst⟩ := hfound
    have hone : (0 + 1) * P.blockSize = P.blockSize := by omega
    rw [hn, Pool.computedLoop] at hbs
    simp only [hone, hsalt] at hbs
    have hsome : ∃ b again, (m.pool.lookupOrRestore P ssd true
        (P.hash none (blockTokens P.blockSize tokens 0) salt) none).1 = .ok (some b, again) := by
      unfold Pool.lookupOrRestore
      cases hg : m.pool.cachedBlockHashToBlock.getBlock
          (P.hash none (blockTokens P.blockSize tokens 0) salt) with
      | some b => exact ⟨b, false, rfl⟩
      | none =>
        obtain ⟨hdisk, hroom⟩ := hfirst.resolve_left (not_not_intro hg)
        obtain ⟨b, hb⟩ := allocate_roomy hst.refines hst.sound hroom
        simp only [hdisk, and_self, if_true]
        generalize m.pool.allocateBlockInternal P = q at hb
        obtain ⟨answer, t⟩ := q
        obtain rfl : answer = .ok (some b) := hb
        exact ⟨b, true, rfl⟩
    obtain ⟨b, again, hb⟩ := hsome
    generalize m.pool.lookupOrRestore P ssd true
      (P.hash none (blockTokens P.blockSize tokens 0) salt) none = q at hb hbs
    obtain ⟨answer, t⟩ := q
    obtain rfl : answer = .ok (some b, again) := hb
    dsimp only at hbs
    generalize Pool.computedLoop P ssd true tokens args n (0 + 1) _ _ _ = q at hbs
    obtain ⟨rest, u⟩ := q
    cases rest with
    | error e => cases hbs
    | ok rest => exact ⟨b, rest, (Except.ok.inj hbs).symm⟩
  obtain ⟨b, rest, rfl⟩ := hcons
  refine ⟨b, rest, (b :: rest).length * P.blockSize, ?_⟩
  rw [(getComputedBlocks_result P m ssd tokens args true).1]
  simp only [Pool.getComputedBlocks, hask.1, hask.2.1, not_true_eq_false, or_self, if_false]
  generalize Pool.computedLoop P ssd true tokens args (tokens.length / P.blockSize) 0 none []
    m.pool = q at hbs
  obtain ⟨answer, t⟩ := q
  obtain rfl : answer = .ok (b :: rest) := hbs
  rfl

def told (P : Params κ) (m : Manager) : Manager :=
  if P.enableCaching = true ∧ P.blockSize ≠ 0 then m.flushContentInvalidated else m

/-- A lookup that finds no first block leaves the pool, statistics apart, and tells what is pending. -/
theorem lookup_misses {args : KeyArgs κ} (ssd : Option (BlockHash → Bool)) (m : Manager)
    (hargs : Asks P tokens → ¬ Unsorted args)
    (hno : Asks P tokens → ¬ FirstFound P m.pool ssd tokens args) :
    ∃ f, m.getComputedBlocks P ssd tokens args true =
      (.ok ([], 0), told P { m with pool := m.pool.bump f }) := by
  by_cases hon : P.enableCaching = true ∧ P.blockSize ≠ 0
  · have hloop : ∃ f, m.pool.getComputedBlocks P ssd tokens args true =
        (.ok ([], 0), m.pool.bump f) := by
      by_cases hlen : P.blockSize ≤ tokens.length
      · have hask : Asks P tokens := ⟨hon.1, hon.2, hlen⟩
        obtain ⟨n, hn⟩ := one_block P tokens hask
        obtain ⟨salt, hsalt⟩ := resolve_sorted (hargs hask) P.blockSize
        have hone : (0 + 1) * P.blockSize = P.blockSize := by omega
        have hmiss : m.pool.lookupOrRestore P ssd true
            (P.hash none (blockTokens P.blockSize tokens 0) salt) none =
              (.ok (none, false), m.pool) := by
          have hnot : ¬ (m.pool.cachedBlockHashToBlock.getBlock
              (P.hash none (blockTokens P.blockSize tokens 0) salt) ≠ none ∨
                (ssd.any (fun hasBlock =>
                  hasBlock (P.hash none (blockTokens P.blockSize tokens 0) salt)) = true ∧
                  Roomy P m.pool)) :=
            fun h => hno hask ⟨salt, hsalt, h⟩
          rw [not_or, not_not, not_and] at hnot
          simp only [Pool.lookupOrRestore, hnot.1, true_and]
          split
          · next hdisk => rw [allocate_full (hnot.2 hdisk)]
          · rfl
        refine ⟨fun t => { t with misses := t.misses + 1 }, ?_⟩
        simp only [Pool.getComputedBlocks, hon.1, hon.2, not_true_eq_false, or_self, if_false, hn,
          Pool.computedLoop, hone, hsalt, hmiss, List.length_nil, Nat.zero_mul]
      · have hn : tokens.length / P.blockSize = 0 := Nat.div_eq_of_lt (Nat.lt_of_not_le hlen)
        refine ⟨id, ?_⟩
        simp only [Pool.getComputedBlocks, hon.1, hon.2, not_true_eq_false, or_self, if_false, hn,
          Pool.computedLoop, List.length_nil, Nat.zero_mul]
        rfl
    obtain ⟨f, hf⟩ := hloop
    refine ⟨f, ?_⟩
    simp only [Manager.getComputedBlocks, hon.1, hon.2, not_true_eq_false, or_self, if_false,
      locked_eq, hf, Manager.thenFlush, told, ne_eq, not_false_eq_true, and_self, if_true]
  · refine ⟨id, ?_⟩
    have hoff : ¬ P.enableCaching = true ∨ P.blockSize = 0 := by
      by_contra hcon
      rw [not_or, not_not] at hcon
      exact hon hcon
    simp only [Manager.getComputedBlocks, if_pos hoff, told, if_neg hon]
    rfl

theorem matchLoop_congr {c d : BlockAwarePrefixCache} (h : c.prefixIndex = d.prefixIndex)
    (tokens : List Int) (salt : Option (List κ)) (n i : Nat) (k : BlockHash) (len : Nat)
    (best : Option IndexEntry) :
    c.matchLoop P tokens salt n i k len best = d.matchLoop P tokens salt n i k len best := by
  induction n generalizing i k len best with
  | zero => rfl
  | succ n ih => rw [matchLoop, matchLoop, h, ih]

theorem findBestPrefixMatch_congr {c d : BlockAwarePrefixCache} (h : c.prefixIndex = d.prefixIndex)
    (tokens : List Int) (salt : Option (List κ)) :
    c.findBestPrefixMatch P tokens salt = d.findBestPrefixMatch P tokens salt := by
  simp only [findBestPrefixMatch, matchLoop_congr h]

/-- The index after a list of invalidations depends on the two indexes only. -/
theorem foldl_index_congr (bs : List Nat) {c d : BlockAwarePrefixCache}
    (h : c.prefixIndex = d.prefixIndex) (h' : c.blockIdToHashes = d.blockIdToHashes) :
    (bs.foldl onBlockFreed c).prefixIndex = (bs.foldl onBlockFreed d).prefixIndex := by
  induction bs generalizing c d with
  | nil => exact h
  | cons b bs ih =>
    have hone : (c.onBlockFreed b).prefixIndex = (d.onBlockFreed b).prefixIndex ∧
        (c.onBlockFreed b).blockIdToHashes = (d.onBlockFreed b).blockIdToHashes := by
      simp only [onBlockFreed, h']
      cases d.blockIdToHashes.get? b with
      | none => exact ⟨h, h'⟩
      | some hs => exact ⟨by rw [h], rfl⟩
    exact ih hone.1 hone.2

def walkDigest (P : Params κ) (tokens : List Int) (salt : Option (List κ)) : Nat → BlockHash
  | 0 => []
  | i + 1 => P.hash (some (walkDigest P tokens salt i)) (blockTokens P.blockSize tokens i) salt

def walkLen (P : Params κ) (tokens : List Int) : Nat → Nat
  | 0 => 0
  | i + 1 => walkLen P tokens i + (blockTokens P.blockSize tokens i).length

def IndexHas (P : Params κ) (c : BlockAwarePrefixCache) (tokens : List Int)
    (salt : Option (List κ)) : Prop :=
  P.blockSize ≠ 0 ∧ ∃ i < (tokens.length + P.blockSize - 1) / P.blockSize,
    ∃ e ∈ c.prefixIndex.get? (walkDigest P tokens salt (i + 1)),
      e.prefixLen = walkLen P tokens (i + 1)

theorem matchLoop_none (salt : Option (List κ)) (n i : Nat) (best : Option IndexEntry) :
    c.matchLoop P tokens salt n i (walkDigest P tokens salt i) (walkLen P tokens i) best = none ↔
      best = none ∧ ∀ j < n, ∀ e ∈ c.prefixIndex.get? (walkDigest P tokens salt (i + j + 1)),
        e.prefixLen ≠ walkLen P tokens (i + j + 1) := by
  induction n generalizing i best with
  | zero => simp [matchLoop]
  | succ n ih =>
    have hnext : ∀ best, c.matchLoop P tokens salt n (i + 1)
        (P.hash (some (walkDigest P tokens salt i)) (blockTokens P.blockSize tokens i) salt)
        (walkLen P tokens i + (blockTokens P.blockSize tokens i).length) best = none ↔
          best = none ∧ ∀ j < n, ∀ e ∈ c.prefixIndex.get? (walkDigest P tokens salt (i + 1 + j + 1)),
            e.prefixLen ≠ walkLen P tokens (i + 1 + j + 1) := ih (i + 1)
    rw [matchLoop, hnext]
    refine (and_congr_left' (b := best = none ∧
      ∀ e ∈ c.prefixIndex.get? (walkDigest P tokens salt (i + 1)),
        e.prefixLen ≠ walkLen P tokens (i + 1)) ?_).trans ?_
    · rw [walkDigest, walkLen]
      cases c.prefixIndex.get? (P.hash (some (walkDigest P tokens salt i))
        (blockTokens P.blockSize tokens i) salt) with
      | none => simp
      | some e => by_cases he : e.prefixLen = walkLen P tokens i +
          (blockTokens P.blockSize tokens i).length <;> simp [he]
    rw [and_assoc]
    refine and_congr_right fun _ => ⟨fun h j hj => ?_, fun h => ⟨h 0 (by omega), fun j hj => ?_⟩⟩
    · cases j with
      | zero => exact h.1
      | succ j =>
        have hrest := h.2 j (by omega)
        rwa [show i + 1 + j + 1 = i + (j + 1) + 1 by omega] at hrest
    · rw [show i + 1 + j + 1 = i + (j + 1) + 1 by omega]
      exact h (j + 1) (by omega)

theorem match_none (salt : Option (List κ)) :
    c.findBestPrefixMatch P tokens salt = none ↔ ¬ IndexHas P c tokens salt := by
  unfold findBestPrefixMatch IndexHas
  by_cases hb : P.blockSize = 0
  · simp [hb]
  · have hloop := @matchLoop_none κ P c tokens salt
      ((tokens.length + P.blockSize - 1) / P.blockSize) 0 none
    simp only [Nat.zero_add] at hloop
    rw [if_neg hb]
    refine hloop.trans ?_
    simp [hb]

/-- A match covers at least one token. -/
theorem matchLoop_pos (salt : Option (List κ)) (n i : Nat) (k : BlockHash) (len : Nat)
    {best : Option IndexEntry} (hbest : ∀ e ∈ best, 0 < e.prefixLen)
    (hlen : 0 < len + (blockTokens P.blockSize tokens i).length) :
    ∀ e ∈ c.matchLoop P tokens salt n i k len best, 0 < e.prefixLen := by
  induction n generalizing i k len best with
  | zero => exact hbest
  | succ n ih =>
    rw [matchLoop]
    apply ih
    · intro e he
      split at he
      · next e' _ =>
        split at he
        · next heq =>
          cases he
          omega
        · exact hbest e he
      · exact hbest e he
    · omega

theorem match_pos {salt : Option (List κ)} {e : IndexEntry} (htok : tokens ≠ [])
    (he : c.findBestPrefixMatch P tokens salt = some e) : 0 < e.prefixLen := by
  unfold findBestPrefixMatch at he
  split at he
  · cases he
  · next hb =>
    refine matchLoop_pos salt _ 0 [] 0 (by simp) ?_ e he
    have hpos := List.length_pos_iff.mpr htok
    simp only [blockTokens, List.length_take, List.length_drop]
    omega

/-- The request has no table, with the manager or of the cache's own. -/
structure NoTable (c : BlockAwarePrefixCache) (r : String) : Prop where
  paged : c.pool.requestTables.get? r = none
  own : c.requestTables.get? r = none

structure SameTables (c c' : BlockAwarePrefixCache) : Prop where
  paged : c'.pool.requestTables = c.pool.requestTables
  own : c'.requestTables = c.requestTables

namespace SameTables

variable {c' c'' : BlockAwarePrefixCache}

theorem refl (c : BlockAwarePrefixCache) : SameTables c c := ⟨rfl, rfl⟩

theorem trans (h : SameTables c c') (h' : SameTables c' c'') : SameTables c c'' :=
  ⟨h'.paged.trans h.paged, h'.own.trans h.own⟩

theorem onPaged {α : Type} {f : Manager → α × Manager}
    (h : (f c.pagedCache).2.pool.requestTables = c.pool.requestTables) :
    SameTables c (c.onPaged f).2 :=
  ⟨by rw [pool, onPaged_pagedCache, h], onPaged_requestTables _ _⟩

end SameTables

theorem freeBlock_tables (m : Manager) (b : Nat) :
    (m.freeBlock b).2.pool.requestTables = m.pool.requestTables := by
  by_cases hb : b ∈ m.pool.allocatedBlocks
  · have he : Ends m (m.pool.freeBlock b).2 (m.freeBlock b).2 := by
      simp only [Manager.freeBlock, hb, if_true]
      exact ends_thenFlush .all (fun s => s.freeBlock b) m
    rw [(ends_pool he).2.2.1]
    cases freeBlock_evicts hb with
    | inl h => rw [h.1]
    | inr h => exact h.choose_spec.tables
  · simp only [Manager.freeBlock, hb, if_false]

theorem incrementRef_tables (m : Manager) (b : Nat) :
    (m.incrementRef P b).2.pool.requestTables = m.pool.requestTables := by
  simp only [Manager.incrementRef, locked_eq, Pool.incrementRef]
  split
  · simp only [Pool.addRef]
    split <;> rfl
  · rfl

theorem freeOne_tables (b : Nat) (c : BlockAwarePrefixCache) : SameTables c (c.freeBlock b) :=
  SameTables.onPaged (freeBlock_tables _ b)

theorem freeAll_tables (bs : List Nat) (c : BlockAwarePrefixCache) :
    SameTables c (bs.foldl BlockAwarePrefixCache.freeBlock c) := by
  induction bs generalizing c with
  | nil => exact .refl c
  | cons b bs ih => exact (freeOne_tables b c).trans (ih _)

theorem sweep_tables (now : Clocks) (c : BlockAwarePrefixCache) :
    SameTables c (c.maybeExpirePinnedBlocks now) := by
  have hall : ∀ (bs : List Nat) (c : BlockAwarePrefixCache),
      SameTables c (bs.foldl BlockAwarePrefixCache.dropPin c) := by
    intro bs
    induction bs with
    | nil => exact .refl
    | cons b bs ih =>
      intro c
      have hone := freeOne_tables b { c with pinnedBlocks := c.pinnedBlocks.erase b }
      exact SameTables.trans ⟨hone.paged, hone.own⟩ (ih _)
  unfold maybeExpirePinnedBlocks
  split
  · exact .refl c
  · split
    · exact .refl c
    · have hswept : SameTables { c with lastPinExpiryCheck := now.monotonic }
          (expirePinnedBlocks { c with lastPinExpiryCheck := now.monotonic } now.time) := hall _ _
      exact ⟨hswept.paged, hswept.own⟩

theorem claimIndexed_tables (bs : List Nat) (c : BlockAwarePrefixCache) :
    SameTables c (claimIndexed P bs c).2 := by
  induction bs generalizing c with
  | nil => exact .refl c
  | cons b bs ih =>
    rw [claimIndexed]
    split
    · exact (SameTables.onPaged (incrementRef_tables _ b)).trans (ih _)
    · exact .refl c

structure Loose (c : BlockAwarePrefixCache) (r : String) : Prop where
  paged : c.pool.requestTables.get? r ≠ none
  own : c.requestTables.get? r = none

theorem Loose.same {c' : BlockAwarePrefixCache} {r : String} (h : Loose c r) (hs : SameTables c c') :
    Loose c' r := ⟨hs.paged ▸ h.paged, hs.own ▸ h.own⟩

theorem Loose.setTable {t : BlockTable} (h : c.requestTables.get? t.requestId = none) :
    Loose (c.setTable t) t.requestId :=
  ⟨by simp [BlockAwarePrefixCache.setTable, edit, Pool.setTable], h⟩

/-- A new table where the cache has no entry of its own. -/
theorem createBlockTable_loose {r : String} (h : c.requestTables.get? r = none) :
    Loose (c.createBlockTable r) r := by
  refine ⟨?_, ?_⟩
  · rw [pool, createBlockTable_pagedCache]
    simp [Manager.createBlockTable, locked_eq, Pool.createBlockTable, Pool.setTable]
  · simp only [createBlockTable, onPaged_requestTables, keepTable, h]

/-- Blocks of the hash map get a table. -/
theorem fetchShared_loose {r : String} {shared : List Nat} (h : c.requestTables.get? r = none)
    (hne : shared ≠ []) : Loose (c.fetchShared r tokens shared).2 r := by
  unfold fetchShared
  rw [if_neg hne]
  exact Loose.setTable (t := ⟨r, shared, _⟩) (createBlockTable_loose h).own

/-- A match in the index gets a table, even when none of its blocks is left. -/
theorem fetchIndexed_loose {r : String} (h : c.requestTables.get? r = none) (shared : List Nat) (e : IndexEntry) :
    Loose (c.fetchIndexed P r tokens shared e).2 r := by
  have hw := (createBlockTable_loose h).same
    (claimIndexed_tables (P := P) (e.blockIds.take e.numBlocks) (c.createBlockTable r))
  unfold fetchIndexed
  dsimp only
  split
  · by_cases hs : shared = []
    · rw [hs, fetchShared, if_pos rfl]
      exact hw
    · exact fetchShared_loose hw.own hs
  · exact (Loose.setTable (t := ⟨r, _, _⟩) hw.own).same (freeAll_tables shared _)

def settled (P : Params κ) (c : BlockAwarePrefixCache) : BlockAwarePrefixCache :=
  (c.onPaged (fun m => ((), told P m))).2

section Fetch

variable {ssd : Option (BlockHash → Bool)} {now : Clocks} {r : String} {args : KeyArgs κ}

/-- Salts that do not resolve stop the lookup behind the sweep of due pins. -/
theorem fetch_raises (htok : tokens ≠ []) (hask : Asks P tokens) (hargs : Unsorted args) :
    (c.fetchCache P ssd now r tokens args).2.pool = (c.maybeExpirePinnedBlocks now).pool ∧
      (c.fetchCache P ssd now r tokens args).2.requestTables = c.requestTables := by
  have hlook := lookup_raises hask hargs ssd (c.maybeExpirePinnedBlocks now).pagedCache
  have hq : (c.maybeExpirePinnedBlocks now).onPaged
      (fun m => m.getComputedBlocks P ssd tokens args true) = (.error .assertionError,
        ((c.maybeExpirePinnedBlocks now).onPaged
          (fun m => m.getComputedBlocks P ssd tokens args true)).2) :=
    Prod.ext (by rw [onPaged_fst, hlook]) rfl
  rw [fetchCache, if_neg htok, hq]
  refine ⟨?_, ?_⟩
  · rw [pool, onPaged_pagedCache, hlook]
  · rw [onPaged_requestTables]
    exact (sweep_tables now c).own

/-- A lookup that the hash map answers leaves a table with the manager only. -/
theorem fetch_finds (h : Stood P c) (hown : c.requestTables.get? r = none) (htok : tokens ≠ [])
    (hask : Asks P tokens)
    (hfound : FirstFound P (c.maybeExpirePinnedBlocks now).pool ssd tokens args) :
    Loose (c.fetchCache P ssd now r tokens args).2 r := by
  have hargs : ¬ Unsorted args := by
    intro hargs
    obtain ⟨salt, hsalt, -⟩ := hfound
    rw [resolve_unsorted hargs] at hsalt
    cases hsalt
  obtain ⟨b, bs, n, hlook⟩ := lookup_finds (h.maybeExpirePinnedBlocks now) hask hargs ssd hfound
  have hq : (c.maybeExpirePinnedBlocks now).onPaged
      (fun m => m.getComputedBlocks P ssd tokens args true) = (.ok (b :: bs, n),
        ((c.maybeExpirePinnedBlocks now).onPaged
          (fun m => m.getComputedBlocks P ssd tokens args true)).2) :=
    Prod.ext (by rw [onPaged_fst, hlook]) rfl
  have hnone : ((c.maybeExpirePinnedBlocks now).onPaged
      (fun m => m.getComputedBlocks P ssd tokens args true)).2.requestTables.get? r = none := by
    rw [onPaged_requestTables, (sweep_tables now c).own, hown]
  rw [fetchCache, if_neg htok, hq]
  dsimp only
  split
  · exact fetchShared_loose hnone (List.cons_ne_nil b bs)
  · dsimp only
    split
    · exact fetchIndexed_loose hnone (b :: bs) _
    · exact fetchShared_loose hnone (List.cons_ne_nil b bs)

theorem flush_trace {m m' : Manager} (hc : m'.callbacks = m.callbacks) (hh : m'.holds = m.holds)
    (ht : m'.trace = m.trace)
    (hp : m'.pool.pendingContentInvalidated = m.pool.pendingContentInvalidated) :
    m'.flushContentInvalidated.trace = m.flushContentInvalidated.trace := by
  simp only [Manager.flushContentInvalidated, hc, hh, hp]
  split
  · exact ht
  · dsimp only
    rw [ht]

/-- A lookup for which the hash map has nothing goes by the index. -/
theorem fetch_misses (htok : tokens ≠ []) (hargs : Asks P tokens → ¬ Unsorted args)
    (hno : Asks P tokens → ¬ FirstFound P (c.maybeExpirePinnedBlocks now).pool ssd tokens args) :
    ∃ d : BlockAwarePrefixCache, d.pool.blocks = (c.maybeExpirePinnedBlocks now).pool.blocks ∧
      SameTables (c.maybeExpirePinnedBlocks now) d ∧
      (c.fetchCache P ssd now r tokens args).2 =
        match (settled P (c.maybeExpirePinnedBlocks now)).findBestPrefixMatch P tokens
            args.extraKeys with
        | none => d
        | some e => (d.fetchIndexed P r tokens [] e).2 := by
  obtain ⟨f, hlook⟩ := lookup_misses ssd (c.maybeExpirePinnedBlocks now).pagedCache hargs hno
  rw [fetchCache, if_neg htok]
  generalize c.maybeExpirePinnedBlocks now = d at hlook
  have hq : d.onPaged (fun m => m.getComputedBlocks P ssd tokens args true) = (.ok ([], 0),
      (d.onPaged (fun m => m.getComputedBlocks P ssd tokens args true)).2) :=
    Prod.ext (by rw [onPaged_fst, hlook]) rfl
  have htold : ∀ m : Manager, (told P m).pool.blocks = m.pool.blocks ∧
      (told P m).pool.requestTables = m.pool.requestTables := by
    intro m
    unfold told Manager.flushContentInvalidated
    split
    · split <;> exact ⟨rfl, rfl⟩
    · exact ⟨rfl, rfl⟩
  have htrace : (told P { d.pagedCache with pool := d.pagedCache.pool.bump f }).trace =
      (told P d.pagedCache).trace := by
    unfold told
    split
    · exact flush_trace rfl rfl rfl rfl
    · rfl
  have hindex : (d.onPaged (fun m => m.getComputedBlocks P ssd tokens args true)).2.findBestPrefixMatch
      P tokens args.extraKeys = (settled P d).findBestPrefixMatch P tokens args.extraKeys := by
    apply findBestPrefixMatch_congr
    simp only [settled, onPaged, hlook, htrace]
    exact foldl_index_congr _ rfl rfl
  refine ⟨(d.onPaged (fun m => m.getComputedBlocks P ssd tokens args true)).2, ?_, ?_, ?_⟩
  · rw [pool, onPaged_pagedCache, hlook]
    exact (htold _).1
  · apply SameTables.onPaged
    rw [hlook]
    exact (htold _).2
  · rw [hq]
    dsimp only
    rw [hindex]
    cases he : (settled P d).findBestPrefixMatch P tokens args.extraKeys with
    | none => rfl
    | some e =>
      have hpos : 0 < e.prefixLen := match_pos htok he
      simp only [if_pos hpos]

/-- The counts of the blocks that were allocated are back, and the request has no table. The null
block stands for no content. -/
structure Returned (s s' : Pool) (r : String) : Prop where
  counts : ∀ b ∈ s.allocatedBlocks, b ≠ 0 → (s'.blocks b).refCount = (s.blocks b).refCount
  table : s'.requestTables.get? r = none

/-- The sweep of due pins with which a lookup begins leaves every count. -/
def CountsSwept (c : BlockAwarePrefixCache) (now : Clocks) : Prop :=
  ∀ b ∈ c.pool.allocatedBlocks, b ≠ 0 →
    ((c.maybeExpirePinnedBlocks now).pool.blocks b).refCount = (c.pool.blocks b).refCount

/-- A lookup raises over its salts, or finds nothing in the hash map and nothing in the index. -/
def FindsNothing (P : Params κ) (c : BlockAwarePrefixCache) (ssd : Option (BlockHash → Bool))
    (tokens : List Int) (args : KeyArgs κ) : Prop :=
  (Asks P tokens ∧ Unsorted args) ∨
    (¬ (Asks P tokens ∧ FirstFound P c.pool ssd tokens args) ∧
      ¬ IndexHas P (settled P c) tokens args.extraKeys)

theorem releaseCache_own (h : c.requestTables.get? r = none) : c.releaseCache r = c := by
  simp only [releaseCache, h]

/-- Only a lookup without a hit is undone by the release. -/
theorem fetch_returned (h : Stood P c) (hno : NoTable c r) :
    Returned c.pool ((c.fetchCache P ssd now r tokens args).2.releaseCache r).pool r ↔
      tokens = [] ∨
        (CountsSwept c now ∧ FindsNothing P (c.maybeExpirePinnedBlocks now) ssd tokens args) := by
  by_cases htok : tokens = []
  · have hsame : (c.fetchCache P ssd now r tokens args).2 = c := by
      rw [fetchCache, if_pos htok]
    rw [hsame, releaseCache_own hno.own]
    exact iff_of_true ⟨fun _ _ _ => rfl, hno.paged⟩ (.inl htok)
  rw [or_iff_right htok]
  have hloose : ∀ d : BlockAwarePrefixCache, Loose d r → ¬ Returned c.pool (d.releaseCache r).pool r := by
    intro d hd hret
    rw [releaseCache_own hd.own] at hret
    exact hd.paged hret.table
  have hkeeps : ∀ d : BlockAwarePrefixCache, d.requestTables.get? r = none →
      d.pool.blocks = (c.maybeExpirePinnedBlocks now).pool.blocks →
      d.pool.requestTables = (c.maybeExpirePinnedBlocks now).pool.requestTables →
      (Returned c.pool (d.releaseCache r).pool r ↔ CountsSwept c now) := by
    intro d hown hblocks htables
    rw [releaseCache_own hown]
    refine ⟨fun hret b hb hne => hblocks ▸ hret.counts b hb hne, fun hkept => ⟨?_, ?_⟩⟩
    · exact fun b hb hne => hblocks ▸ hkept b hb hne
    · rw [htables, (sweep_tables now c).paged, hno.paged]
  by_cases hraise : Asks P tokens ∧ Unsorted args
  · obtain ⟨hpool, hown⟩ := @fetch_raises κ P c tokens ssd now r args htok hraise.1 hraise.2
    rw [hkeeps _ (hown ▸ hno.own) (by rw [hpool]) (by rw [hpool])]
    exact (and_iff_left (.inl hraise)).symm
  by_cases hfirst : Asks P tokens ∧
      FirstFound P (c.maybeExpirePinnedBlocks now).pool ssd tokens args
  · refine iff_of_false (hloose _ (fetch_finds h hno.own htok hfirst.1 hfirst.2)) fun hcond => ?_
    exact hcond.2.elim hraise fun hmiss => hmiss.1 hfirst
  · obtain ⟨d, hblocks, htables, hfetch⟩ := fetch_misses (r := r) htok
      (fun hask hu => hraise ⟨hask, hu⟩) (fun hask hf => hfirst ⟨hask, hf⟩)
    have hown : d.requestTables.get? r = none := by
      rw [htables.own, (sweep_tables now c).own, hno.own]
    rw [hfetch]
    cases he : (settled P (c.maybeExpirePinnedBlocks now)).findBestPrefixMatch P tokens
        args.extraKeys with
    | none =>
      dsimp only
      rw [hkeeps d hown hblocks htables.paged]
      exact (and_iff_left (.inr ⟨hfirst, (match_none _).mp he⟩)).symm
    | some e =>
      refine iff_of_false (hloose _ (fetchIndexed_loose hown [] e)) fun hcond => ?_
      refine hcond.2.elim hraise fun hmiss => ?_
      have hnone := (match_none _).mpr hmiss.2
      rw [he] at hnone
      cases hnone

end Fetch

end FusionMlx.FetchReferences
