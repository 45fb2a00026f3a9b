import FusionMlx.Cache.FetchReferences
import FusionMlx.Cache.PinnedBlocks

/-!
# What a release gives back

Freeing the blocks of a table takes one reference for each place in it. The
radix cache deletes the table of a lookup in `clear_request_entry` and leaves
it in `release_cache`; the block-aware cache leaves it in both.
-/
namespace FusionMlx.ReturnedReferences

open BlockHashing BlockPool OrderedDict OwnedBlocks PagedCacheManager ManagerRuns
open ReferenceBooks Runs StandingCalls FetchReferences PrefixCache RadixTrie RadixLookup
open PinnedBlocks (Starts tinyRun tinyRun_reached)
open PoolInvariant (Partitioned FoundUnder partitioned_of_stands foundUnder_of_listed)

variable {κ : Type} {P : Params κ} {m : Manager}

theorem null_iff (h : Standing P m) (b : Nat) : (m.pool.blocks b).isNull = true ↔ b = 0 := by
  obtain ⟨a, hst⟩ := h.stands
  exact hst.refines.null b

theorem refs_nonneg (h : Standing P m) {b : Nat} (hb : b ∈ m.pool.allocatedBlocks) :
    0 ≤ (m.pool.blocks b).refCount := by
  obtain ⟨a, hst⟩ := h.stands
  rw [hst.refines.refs]
  exact hst.sound.heldRefs b ((hst.refines.held b).mpr hb)

/-- Freeing the null block changes nothing. -/
theorem freeBlock_null (h : Standing P m) : (m.freeBlock 0).2.pool.blocks = m.pool.blocks ∧
    (m.freeBlock 0).2.pool.allocatedBlocks = m.pool.allocatedBlocks := by
  have hnull := (null_iff h 0).mpr rfl
  by_cases hin : 0 ∈ m.pool.allocatedBlocks
  · have he : Ends m (m.pool.freeBlock 0).2 (m.freeBlock 0).2 := by
      simp only [Manager.freeBlock, hin, if_true]
      exact ends_thenFlush .all (fun s => s.freeBlock 0) m
    have hsame : (m.pool.freeBlock 0).2 = m.pool := by
      simp only [Pool.freeBlock, hin, if_true, Pool.freeBlockLocked, hnull]
    rw [(ends_pool he).1, (ends_pool he).2.1, hsame]
    exact ⟨rfl, rfl⟩
  · rw [Manager.freeBlock, if_neg hin]
    exact ⟨rfl, rfl⟩

/-- Freeing an allocated block takes one reference of it, and evicts only what has none. -/
theorem freeBlock_counts (h : Standing P m) {b : Nat} (hin : b ∈ m.pool.allocatedBlocks)
    (hne : b ≠ 0) :
    (∀ x, ((m.freeBlock b).2.pool.blocks x).refCount =
        (m.pool.blocks x).refCount - if x = b then 1 else 0) ∧
      ∀ x ∈ m.pool.allocatedBlocks, 0 < ((m.freeBlock b).2.pool.blocks x).refCount →
        x ∈ (m.freeBlock b).2.pool.allocatedBlocks := by
  have he : Ends m (m.pool.freeBlock b).2 (m.freeBlock b).2 := by
    simp only [Manager.freeBlock, hin, if_true]
    exact ends_thenFlush .all (fun s => s.freeBlock b) m
  rw [(ends_pool he).1, (ends_pool he).2.1]
  cases freeBlock_evicts hin with
  | inl hnull => exact absurd ((null_iff h b).mp hnull.2) hne
  | inr hev =>
    obtain ⟨new, hev⟩ := hev
    refine ⟨fun x => ?_, fun x hx hpos => ?_⟩
    · rw [hev.refs]
      by_cases hxb : x = b <;> simp [decrement, Pool.modify, CacheBlock.setRef, hxb]
    · cases hev.kept x hx with
      | inl hkept => exact hkept.1
      | inr hgone =>
        rw [hev.refs] at hpos
        exact absurd hgone.1 (Int.not_le.mpr hpos)

theorem freeBlock_le (h : Standing P m) (b x : Nat) :
    ((m.freeBlock b).2.pool.blocks x).refCount ≤ (m.pool.blocks x).refCount := by
  by_cases hin : b ∈ m.pool.allocatedBlocks
  · by_cases hb : b = 0
    · rw [hb, (freeBlock_null h).1]
    · rw [(freeBlock_counts h hin hb).1]
      split <;> omega
  · rw [Manager.freeBlock, if_neg hin]

theorem freeAll_le (h : Standing P m) (bs : List Nat) (x : Nat) :
    ((bs.foldl (fun m b => (m.freeBlock b).2) m).pool.blocks x).refCount ≤ (m.pool.blocks x).refCount := by
  induction bs generalizing m with
  | nil => exact le_rfl
  | cons b bs ih => exact (ih (h.exec (.freeBlock b) trivial)).trans (freeBlock_le h b x)

theorem freeAll_keeps_iff (h : Standing P m) (bs : List Nat) :
    (∀ x ∈ m.pool.allocatedBlocks, x ≠ 0 →
      ((bs.foldl (fun m b => (m.freeBlock b).2) m).pool.blocks x).refCount = (m.pool.blocks x).refCount) ↔
    ∀ b ∈ bs, b ∈ m.pool.allocatedBlocks → b = 0 := by
  induction bs generalizing m with
  | nil => simp
  | cons b bs ih =>
    have hrest := ih (h.exec (.freeBlock b) trivial)
    simp only [PagedCacheManager.exec] at hrest
    rw [List.forall_mem_cons, List.foldl_cons]
    by_cases hin : b ∈ m.pool.allocatedBlocks
    · by_cases hb : b = 0
      · subst hb
        rw [(freeBlock_null h).1, (freeBlock_null h).2] at hrest
        rw [hrest]
        exact (and_iff_right fun _ => rfl).symm
      · refine iff_of_false (fun hkeep => ?_) fun hnone => hb (hnone.1 hin)
        have hle := freeAll_le (h.exec (.freeBlock b) trivial) bs b
        simp only [PagedCacheManager.exec] at hle
        rw [hkeep b hin hb, (freeBlock_counts h hin hb).1, if_pos rfl] at hle
        omega
    · rw [Manager.freeBlock, if_neg hin] at hrest ⊢
      rw [hrest]
      exact (and_iff_right fun hb => absurd hb hin).symm

/-- No pin that is due at a lookup is of an allocated block. The null block stands for no content. -/
def SweepKeeps (c : BlockAwarePrefixCache) (now : Clocks) : Prop :=
  pinExpiryCheckInterval ≤ now.monotonic - c.lastPinExpiryCheck →
    ∀ p ∈ c.pinnedBlocks.entries, p.2 ≠ 0 ∧ now.time ≥ p.2 → p.1 ∈ c.pool.allocatedBlocks → p.1 = 0

theorem foldl_dropPin (bs : List Nat) (c : BlockAwarePrefixCache) :
    (bs.foldl BlockAwarePrefixCache.dropPin c).pagedCache =
      bs.foldl (fun m b => (m.freeBlock b).2) c.pagedCache := by
  induction bs generalizing c with
  | nil => rfl
  | cons b bs ih =>
    rw [List.foldl_cons, ih, BlockAwarePrefixCache.dropPin, BlockAwarePrefixCache.freeBlock,
      BlockAwarePrefixCache.onPaged_pagedCache, List.foldl_cons]

/-- The counts stay exactly when no due pin is of an allocated block. -/
theorem countsSwept_iff {c : BlockAwarePrefixCache} (h : Stood P c) (now : Clocks) :
    CountsSwept c now ↔ SweepKeeps c now := by
  unfold CountsSwept SweepKeeps BlockAwarePrefixCache.maybeExpirePinnedBlocks
  split
  · next hnone => exact iff_of_true (fun _ _ _ => rfl) fun _ p hp => by rw [hnone] at hp; cases hp
  · split
    · next hsoon => exact iff_of_true (fun _ _ _ => rfl) fun hlate => absurd hsoon (not_lt.mpr hlate)
    · next hsoon =>
      simp only [BlockAwarePrefixCache.pool, BlockAwarePrefixCache.expirePinnedBlocks, foldl_dropPin]
      refine (freeAll_keeps_iff h _).trans ?_
      simp only [List.forall_mem_map, List.mem_filter, decide_eq_true_eq, and_imp, not_lt.mp hsoon, true_imp_iff]

def Backed (s : Pool) (bs : List Nat) : Prop :=
  ∀ b ∈ bs, b ≠ 0 → b ∈ s.allocatedBlocks ∧ (bs.count b : Int) ≤ (s.blocks b).refCount

/-- Freeing a list of blocks takes a reference for each place. -/
theorem freeAll_counts {bs : List Nat} (h : Standing P m) (hbs : Backed m.pool bs) :
    ∀ x, x ≠ 0 → ((bs.foldl (fun m b => (m.freeBlock b).2) m).pool.blocks x).refCount =
      (m.pool.blocks x).refCount - bs.count x := by
  induction bs generalizing m with
  | nil => simp
  | cons b bs ih =>
    intro x hx
    have hnext : Standing P (m.freeBlock b).2 := h.exec (.freeBlock b) trivial
    by_cases hb : b = 0
    · subst hb
      obtain ⟨hblocks, hheld⟩ := freeBlock_null h
      have hrest : Backed (m.freeBlock 0).2.pool bs := by
        intro y hy hne
        have hold := hbs y (List.mem_cons_of_mem _ hy) hne
        rw [List.count_cons_of_ne (Ne.symm hne)] at hold
        rw [hblocks, hheld]
        exact hold
      rw [List.foldl_cons, ih hnext hrest x hx, hblocks, List.count_cons_of_ne (Ne.symm hx)]
    · obtain ⟨hin, hcount⟩ := hbs b List.mem_cons_self hb
      obtain ⟨hrefs, hkept⟩ := freeBlock_counts h hin hb
      have hrest : Backed (m.freeBlock b).2.pool bs := by
        intro y hy hne
        obtain ⟨hyin, hycount⟩ := hbs y (List.mem_cons_of_mem _ hy) hne
        have hpos : 0 < bs.count y := List.count_pos_iff.mpr hy
        have hy' : (bs.count y : Int) ≤ ((m.freeBlock b).2.pool.blocks y).refCount := by
          rw [hrefs]
          rw [List.count_cons] at hycount
          by_cases hyb : y = b
          · simp only [hyb, beq_self_eq_true, if_true] at hycount ⊢
            omega
          · have hby : (b == y) = false := by simpa using Ne.symm hyb
            simp only [hyb, hby, if_false] at hycount ⊢
            omega
        exact ⟨hkept y hyin (by omega), hy'⟩
      rw [List.foldl_cons, ih hnext hrest x hx, hrefs, List.count_cons]
      by_cases hxb : x = b
      · simp only [hxb, beq_self_eq_true, if_true]
        omega
      · have hbx : (b == x) = false := by simpa using Ne.symm hxb
        simp [hxb, hbx]

/-- Deleting a table takes the references of its places. -/
theorem deleteBlockTable_counts {r : String} {t : BlockTable} (h : Standing P m)
    (ht : m.pool.requestTables.get? r = some t) (hbs : Backed m.pool t.blockIds) :
    (∀ x, x ≠ 0 → ((m.deleteBlockTable r).pool.blocks x).refCount =
        (m.pool.blocks x).refCount - t.blockIds.count x) ∧
      (m.deleteBlockTable r).pool.requestTables.get? r = none := by
  have hdetached : Standing P { m with
      holds := m.holds.acquire .all, pool := (m.pool.detachRequestTable r).2 } :=
    h.same (LookupRefinement.detachRequestTable_same _ r)
  have htables : ∀ (bs : List Nat) (m : Manager),
      (bs.foldl (fun m b => (m.freeBlock b).2) m).pool.requestTables = m.pool.requestTables := by
    intro bs
    induction bs with
    | nil => exact fun m => rfl
    | cons b bs ih => exact fun m => (ih _).trans (freeBlock_tables m b)
  have hdelete : (m.deleteBlockTable r).pool = (t.blockIds.foldl (fun (m : Manager) b => (m.freeBlock b).2)
      { m with holds := m.holds.acquire .all, pool := (m.pool.detachRequestTable r).2 }).pool := by
    simp only [Manager.deleteBlockTable, Manager.withLocks, Manager.onPool, Pool.detachRequestTable,
      ht]
  refine ⟨fun x hx => ?_, ?_⟩
  · rw [hdelete, freeAll_counts hdetached hbs x hx]
    rfl
  · rw [hdelete, htables]
    exact Dict.get?_erase_self _ r

section Radix

variable {c : RadixPrefixCache} {r : String} {tokens : List Int} {args : KeyArgs κ}

theorem addRef_counts (s : Pool) (b x : Nat) : ((s.addRef P b).blocks x).refCount =
    (s.blocks x).refCount + if x = b then 1 else 0 := by
  have hblocks : (s.addRef P b).blocks =
      ((s.modify b (fun d => d.setRef (d.refCount + 1))).touchBlock P b).blocks := by
    simp only [Pool.addRef]
    split <;> rfl
  rw [hblocks]
  by_cases hxb : x = b <;> simp [Pool.touchBlock, Pool.modify, CacheBlock.setRef, hxb]

/-- Taking a reference for each id of a list of allocated blocks. -/
theorem claims_counts {ids : List Nat} (hids : ∀ b ∈ ids, b ∈ c.pool.allocatedBlocks) :
    ∀ x, ((ids.foldl (fun c b =>
      (c.onKv (fun k => k.onPaged (fun m => m.incrementRef P b))).2) c).pool.blocks x).refCount =
        (c.pool.blocks x).refCount + ids.count x := by
  induction ids generalizing c with
  | nil => simp
  | cons b ids ih =>
    intro x
    have hb := hids b List.mem_cons_self
    have hpool : (c.onKv (fun k => k.onPaged (fun m => m.incrementRef P b))).2.pool =
        c.pool.addRef P b := by
      simp only [RadixPrefixCache.pool, onKv_kvCache, BlockAwarePrefixCache.pool,
        BlockAwarePrefixCache.onPaged_pagedCache, Manager.incrementRef, locked_eq, Pool.incrementRef]
      rw [if_pos hb]
    have hstep : ((c.onKv (fun k => k.onPaged (fun m => m.incrementRef P b))).2.pool.blocks
        x).refCount = (c.pool.blocks x).refCount + if x = b then 1 else 0 := by
      rw [hpool]
      exact addRef_counts c.pool b x
    have hrest : ∀ y ∈ ids,
        y ∈ (c.onKv (fun k => k.onPaged (fun m => m.incrementRef P b))).2.pool.allocatedBlocks := by
      intro y hy
      have hkept := claims_allocated (P := P) [b] c
      rw [List.foldl_cons, List.foldl_nil] at hkept
      rw [hkept]
      exact hids y (List.mem_cons_of_mem _ hy)
    rw [List.foldl_cons, ih hrest, hstep, List.count_cons]
    by_cases hxb : x = b
    · simp only [hxb, beq_self_eq_true, if_true]
      omega
    · have hbx : (b == x) = false := by simpa using Ne.symm hxb
      simp [hxb, hbx]

theorem claims_tables (ids : List Nat) (c : RadixPrefixCache) :
    SameTables c.kvCache (ids.foldl (fun c b =>
      (c.onKv (fun k => k.onPaged (fun m => m.incrementRef P b))).2) c).kvCache := by
  induction ids generalizing c with
  | nil => exact .refl _
  | cons b ids ih =>
    have hone : SameTables c.kvCache
        (c.onKv (fun k => k.onPaged (fun m => m.incrementRef P b))).2.kvCache :=
      SameTables.onPaged (incrementRef_tables _ b)
    exact hone.trans (ih _)

/-- A lookup that finds no block changes nothing. -/
theorem radixFetch_nothing (h : found P c tokens = []) : (c.fetchCache P r tokens args).2 = c := by
  unfold found at h
  unfold RadixPrefixCache.fetchCache
  split
  · rfl
  · split
    · rfl
    · simp only [h, if_true]

structure Entered (s : Pool) (c : RadixPrefixCache) (r : String) (ids : List Nat) : Prop where
  counts : ∀ x, (c.pool.blocks x).refCount = (s.blocks x).refCount + ids.count x
  allocated : c.pool.allocatedBlocks = s.allocatedBlocks
  table : ∃ n, c.pool.requestTables.get? r = some ⟨r, ids, n⟩
  own : c.kvCache.requestTables.get? r = none

theorem radixFetch_found (hown : c.kvCache.requestTables.get? r = none)
    (h : found P c tokens ≠ []) :
    Entered c.pool (c.fetchCache P r tokens args).2 r (found P c tokens) := by
  have hblock : P.blockSize ≠ 0 := by
    intro hzero
    exact h (by simp [found, blockSlices, hzero, Trie.walk])
  have htok : tokens ≠ [] := by
    intro hnil
    exact h (by simp [found, blockSlices, hnil, Trie.walk])
  have hids : ∀ b ∈ found P c tokens, b ∈ c.pool.allocatedBlocks := by
    intro b hb
    obtain ⟨i, hi⟩ := List.mem_iff_getElem?.mp hb
    have hus := (found_spec c tokens i b hi).1
    simp only [RadixPrefixCache.usable, decide_eq_true_eq] at hus
    exact hus.1
  unfold found at h hids ⊢
  unfold RadixPrefixCache.fetchCache
  rw [if_neg htok, if_neg hblock]
  simp only [if_neg h]
  generalize c.trie.walk (RadixPrefixCache.usable c.pool) (blockSlices P.blockSize tokens) 0 = ids
    at h hids
  have hcreated : (c.onKv (fun k => ((), k.createBlockTable r))).2.pool =
      c.pool.createBlockTable r := by
    simp only [RadixPrefixCache.pool, onKv_kvCache, BlockAwarePrefixCache.pool,
      BlockAwarePrefixCache.createBlockTable_pagedCache, Manager.createBlockTable, locked_eq]
  have hin : ∀ b ∈ ids, b ∈ (c.onKv (fun k => ((), k.createBlockTable r))).2.pool.allocatedBlocks :=
    fun b hb => hcreated ▸ hids b hb
  have hcounts := claims_counts (P := P) hin
  have hheld := claims_allocated (P := P) ids (c.onKv (fun k => ((), k.createBlockTable r))).2
  have htables := claims_tables (P := P) ids (c.onKv (fun k => ((), k.createBlockTable r))).2
  generalize ids.foldl (fun c b => (c.onKv (fun k => k.onPaged (fun m => m.incrementRef P b))).2)
    (c.onKv (fun k => ((), k.createBlockTable r))).2 = d at hcounts hheld htables
  have hlive : ids.filter (· ∈ d.pool.allocatedBlocks) = ids := by
    refine List.filter_eq_self.mpr fun b hb => ?_
    rw [hheld]
    exact decide_eq_true (hin b hb)
  rw [hlive]
  rw [hcreated] at hcounts hheld
  refine ⟨hcounts, hheld, ⟨_, Dict.get?_set_self _ r _⟩, ?_⟩
  exact htables.own ▸ (createBlockTable_loose hown).own

/-- Taking what a lookup gave: a table is in the way. -/
theorem radixRelease_returned (hno : NoTable c.kvCache r) :
    Returned c.pool ((c.fetchCache P r tokens args).2.releaseCache r).pool r ↔
      found P c tokens = [] := by
  by_cases hf : found P c tokens = []
  · rw [radixFetch_nothing hf]
    refine iff_of_true ?_ hf
    have hsame : (c.releaseCache r).pool = c.pool :=
      congrArg BlockAwarePrefixCache.pool (releaseCache_own hno.own)
    rw [hsame]
    exact ⟨fun _ _ _ => rfl, hno.paged⟩
  · refine iff_of_false (fun hret => ?_) hf
    have hent := @radixFetch_found κ P c r tokens args hno.own hf
    obtain ⟨n, hn⟩ := hent.table
    have hsame : ((c.fetchCache P r tokens args).2.releaseCache r).pool =
        (c.fetchCache P r tokens args).2.pool :=
      congrArg BlockAwarePrefixCache.pool (releaseCache_own hent.own)
    have hgone := hret.table
    rw [hsame, hn] at hgone
    cases hgone

/-- Deleting the table gives every reference of the lookup back. -/
theorem radixClear_returned (h : RadixStood P c) (hno : NoTable c.kvCache r) :
    Returned c.pool ((c.fetchCache P r tokens args).2.clearRequestEntry r).pool r := by
  have hcleared : ∀ d : RadixPrefixCache, d.kvCache.requestTables.get? r = none →
      (d.clearRequestEntry r).pool = (d.kvCache.pagedCache.deleteBlockTable r).pool := by
    intro d hown
    have hsame : (d.onKv (fun k => ((), k.clearRequestEntry r))).2.kvCache = d.kvCache :=
      releaseCache_own hown
    simp only [RadixPrefixCache.clearRequestEntry, RadixPrefixCache.pool,
      RadixPrefixCache.dropRequest, onKv_kvCache, BlockAwarePrefixCache.pool,
      BlockAwarePrefixCache.onPaged_pagedCache]
    rw [show (d.kvCache.clearRequestEntry r) = d.kvCache from releaseCache_own hown]
  by_cases hf : found P c tokens = []
  · rw [radixFetch_nothing hf, hcleared c hno.own]
    have hpool : (c.kvCache.pagedCache.deleteBlockTable r).pool =
        (c.kvCache.pagedCache.pool.detachRequestTable r).2 := by
      simp only [Manager.deleteBlockTable, Manager.withLocks, Manager.onPool,
        Pool.detachRequestTable, show c.kvCache.pagedCache.pool.requestTables.get? r = none from
          hno.paged]
    rw [hpool]
    exact ⟨fun _ _ _ => rfl, Dict.get?_erase_self _ r⟩
  · have hent := @radixFetch_found κ P c r tokens args hno.own hf
    have hstood : RadixStood P (c.fetchCache P r tokens args).2 := h.fetchCache r tokens args
    rw [hcleared _ hent.own]
    obtain ⟨n, hn⟩ := hent.table
    have hbacked : Backed (c.fetchCache P r tokens args).2.pool (found P c tokens) := by
      intro b hb _
      obtain ⟨i, hi⟩ := List.mem_iff_getElem?.mp hb
      have hus := (found_spec c tokens i b hi).1
      simp only [RadixPrefixCache.usable, decide_eq_true_eq] at hus
      have hpos := refs_nonneg h hus.1
      rw [hent.allocated, hent.counts]
      exact ⟨hus.1, Int.le_add_of_nonneg_left hpos⟩
    obtain ⟨hcounts, hgone⟩ := deleteBlockTable_counts hstood hn hbacked
    refine ⟨fun b _ hne => ?_, hgone⟩
    rw [hcounts b hne, hent.counts]
    exact Int.add_sub_cancel _ _

/-- The first full block spells a child of the root whose content is in the pool. -/
def FirstMatched (P : Params κ) (c : RadixPrefixCache) (tokens : List Int) : Prop :=
  ∃ ts ∈ (blockSlices P.blockSize tokens).head?,
    ∃ n ∈ (c.trie.nodes 0).children.get? (firstToken ts), ∃ b ∈ (c.trie.nodes n).blockId,
      (c.trie.nodes n).key = ts ∧ RadixPrefixCache.usable c.pool b = true

theorem found_nil (c : RadixPrefixCache) (tokens : List Int) :
    found P c tokens = [] ↔ ¬ FirstMatched P c tokens := by
  unfold found FirstMatched
  cases blockSlices P.blockSize tokens with
  | nil => simp [Trie.walk]
  | cons ts rest =>
    rw [Trie.walk]
    constructor
    · rintro hnil ⟨ts', hts, n, hn, b, hb, hk, hu⟩
      cases hts
      rw [Option.mem_def] at hn hb
      simp only [hn, hb, hk, hu, and_self, if_true] at hnil
      cases hnil
    · intro hno
      split
      · rfl
      · next n hn =>
        split
        · rfl
        · next b hb => exact if_neg fun hu => hno ⟨ts, rfl, n, hn, b, hb, hu⟩

end Radix

/-- A radix cache over a manager just constructed. -/
def RadixStarts (P : Params κ) (c : RadixPrefixCache) : Prop :=
  ∃ m, Manager.init P = .ok m ∧ c = RadixPrefixCache.init m

/-- In every state the caches reach: a lookup of the block-aware cache is undone exactly when
nothing is found, by `release_cache` as by `clear_request_entry`; one of the radix cache always by
`clear_request_entry`, and by `release_cache` exactly when nothing is found. -/
theorem references_returned_iff (P : Params κ) :
    (∀ c, Reached (Starts P) Sane (PrefixCache.step P) c → ∀ ssd now r tokens args, NoTable c r →
      (Returned c.pool ((c.fetchCache P ssd now r tokens args).2.releaseCache r).pool r ↔
        tokens = [] ∨
          (SweepKeeps c now ∧ FindsNothing P (c.maybeExpirePinnedBlocks now) ssd tokens args)) ∧
      (Returned c.pool ((c.fetchCache P ssd now r tokens args).2.clearRequestEntry r).pool r ↔
        tokens = [] ∨
          (SweepKeeps c now ∧ FindsNothing P (c.maybeExpirePinnedBlocks now) ssd tokens args))) ∧
    ∀ c, Reached (RadixStarts P) RadixSane (RadixTrie.step P) c → ∀ r tokens args,
      NoTable c.kvCache r →
        (Returned c.pool ((c.fetchCache P r tokens args).2.releaseCache r).pool r ↔
          ¬ FirstMatched P c tokens) ∧
        Returned c.pool ((c.fetchCache P r tokens args).2.clearRequestEntry r).pool r := by
  refine ⟨fun c hc ssd now r tokens args hno => ?_, fun c hc r tokens args hno => ?_⟩
  · have hstood : Stood P c := hc.invariant
      (fun c ⟨m, hm, hinit⟩ => hinit ▸ init_stood hm) (fun c call _ h hok => step_stood h hok)
    rw [← countsSwept_iff hstood]
    exact ⟨fetch_returned hstood hno, fetch_returned hstood hno⟩
  · have hstood : RadixStood P c := hc.invariant
      (fun c ⟨m, hm, hinit⟩ => hinit ▸ init_radixStood hm)
      (fun c call _ h hok => step_radixStood h hok)
    exact ⟨(radixRelease_returned hno).trans (found_nil c tokens), radixClear_returned hstood hno⟩

def tinyRadix (n : Nat) (calls : List (RadixTrie.Call Int)) : RadixPrefixCache :=
  runList (RadixTrie.step (tiny n)) (RadixPrefixCache.init (tinyStart n)) calls

theorem tinyRadix_reached (n : Nat) (calls : List (RadixTrie.Call Int))
    (hok : AllOk RadixSane (RadixTrie.step (tiny n)) (RadixPrefixCache.init (tinyStart n)) calls) :
    Reached (RadixStarts (tiny n)) RadixSane (RadixTrie.step (tiny n)) (tinyRadix n calls) :=
  Reached.runList (.start ⟨_, init_started _ _, rfl⟩) hok

theorem references_returned_miss :
    Returned (tinyRun 2 [.storeCache {} "a" [7] {}]).pool
        (((tinyRun 2 [.storeCache {} "a" [7] {}]).fetchCache (tiny 2) none {} "b" [8]
          {}).2.releaseCache "b").pool "b" ∧
      Returned (tinyRadix 2 [.storeCache {} "a" [7] {}]).pool
        (((tinyRadix 2 [.storeCache {} "a" [7] {}]).fetchCache (tiny 2) "b" [7]
          {}).2.clearRequestEntry "b").pool "b" := by
  have hboth := references_returned_iff (tiny 2)
  have hplain : Reached (Starts (tiny 2)) Sane (PrefixCache.step (tiny 2))
      (tinyRun 2 [.storeCache {} "a" [7] {}]) := tinyRun_reached 2 _ ⟨trivial, trivial⟩
  have hradix := tinyRadix_reached 2 [.storeCache {} "a" [7] {}] ⟨trivial, trivial⟩
  refine ⟨((hboth.1 _ hplain none {} "b" [8] {} ⟨by decide +kernel, by decide +kernel⟩).1).mpr
    (.inr ⟨fun _ _ hp => (by cases hp), .inr ⟨?_, ?_⟩⟩), ?_⟩
  · rintro ⟨-, salt, hsalt, hfound⟩
    cases hsalt
    cases hfound with
    | inl hmap => exact hmap (by decide +kernel)
    | inr hdisk => cases hdisk.1
  · rw [← match_none]
    decide +kernel
  · exact (hboth.2 _ hradix "b" [7] {} ⟨by decide +kernel, by decide +kernel⟩).2

/-- A block nobody holds is looked up once; the reference outlives both ways to end the request. -/
theorem fetched_block_stays_referenced :
    let c := tinyRun 2 [.storeCache {} "a" [7] {}, .retire "a"]
    let d := (c.fetchCache (tiny 2) none {} "b" [7] {}).2
    c.pool.requestTables.get? "b" = none ∧ c.requestTables.get? "b" = none ∧
      (c.pool.blocks 1).refCount = 0 ∧
      ((d.releaseCache "b").pool.blocks 1).refCount = 1 ∧
      (d.releaseCache "b").pool.requestTables.get? "b" = some ⟨"b", [1], 1⟩ ∧
      ((d.clearRequestEntry "b").pool.blocks 1).refCount = 1 ∧
      (d.clearRequestEntry "b").pool.requestTables.get? "b" = some ⟨"b", [1], 1⟩ := by
  decide +kernel

/-- The pool is partitioned, and its hash map names allocated blocks that carry the hash. -/
def Intact (P : Params κ) (s : Pool) : Prop :=
  ∃ free, Partitioned P s free ∧
    ∀ k b, s.cachedBlockHashToBlock.Registered k b → FoundUnder s k b ∧ b ∉ free

theorem intact_of_standing (h : Standing P m) : Intact P m.pool := by
  obtain ⟨a, hst⟩ := h.stands
  refine ⟨a.free, partitioned_of_stands hst, fun k b hreg => ?_⟩
  have he := (hst.refines.entries k b).mpr hreg
  exact ⟨foundUnder_of_listed hst.refines hst.sound he,
    fun hf => hst.sound.freeHeld b hf (hst.sound.listed k b he).1⟩

/-- Whatever is called on the caches, in whatever order, leaves the pool below them intact. -/
theorem pool_intact (P : Params κ) :
    (∀ c, Reached (Starts P) Sane (PrefixCache.step P) c → Intact P c.pool) ∧
      ∀ c, Reached (RadixStarts P) RadixSane (RadixTrie.step P) c → Intact P c.pool :=
  ⟨fun _ hc => intact_of_standing (hc.invariant
      (fun _ ⟨_, hm, hinit⟩ => hinit ▸ init_stood hm) fun _ _ _ h hok => step_stood h hok),
    fun _ hc => intact_of_standing (hc.invariant
      (fun _ ⟨_, hm, hinit⟩ => hinit ▸ init_radixStood hm) fun _ _ _ h hok => step_radixStood h hok)⟩

theorem pool_intact_forked : Intact (tiny 2) (tinyRun 2 [.storeCache {} "a" [7] {},
    .forkCache "a" "b", .releaseCache "a", .clear]).pool :=
  (pool_intact (tiny 2)).1 _ (tinyRun_reached 2 _ ⟨trivial, trivial, trivial, trivial, trivial⟩)

end FusionMlx.ReturnedReferences
