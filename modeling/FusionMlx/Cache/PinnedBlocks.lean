import FusionMlx.Cache.PrefixCache
import FusionMlx.Cache.ReferenceBooks

/-!
# Who owns the references of the prefix cache

The places in the tracked tables and the pins own references, one each. Every
call of the cache moves the counts by exactly what it enters or drops, except
`clear`, which rebuilds the pool and leaves the pins behind.
-/
namespace FusionMlx.PinnedBlocks

open BlockHashing BlockPool OrderedDict PoolRefinement LookupRefinement
open PagedCacheManager ManagerRuns ReferenceBooks Runs PrefixCache PrefixCache.BlockAwarePrefixCache

variable {κ : Type} {P : Params κ} {c : BlockAwarePrefixCache} {m : Manager}
variable {owed rest extra : Nat → Nat} {T : Dict String BlockTable} {pins : Dict Nat Nat}

def listed (T : Dict String BlockTable) (b : Nat) : Nat := T.total (fun t => t.blockIds.count b)

def pinned (pins : Dict Nat Nat) (b : Nat) : Nat := if b ∈ pins.keys then 1 else 0

def owners (T : Dict String BlockTable) (pins : Dict Nat Nat) (extra : Nat → Nat) (b : Nat) : Nat :=
  listed T b + (pinned pins b + extra b)

/-- The tables are entered under their own request ids, and no index entry names the null block. -/
structure Kept (P : Params κ) (extra : Nat → Nat) (c : BlockAwarePrefixCache) : Prop where
  books : Books P c.pagedCache (owners c.pool.requestTables c.pinnedBlocks extra)
  keyed : ∀ r t, c.pool.requestTables.get? r = some t → t.requestId = r
  indexed : ∀ h e, c.prefixIndex.get? h = some e → 0 ∉ e.blockIds

variable {b : Nat} {e : IndexEntry}

theorem onBlockFreed_index {h : BlockHash}
    (hget : (c.onBlockFreed b).prefixIndex.get? h = some e) : c.prefixIndex.get? h = some e := by
  have herase : ∀ (hs : List BlockHash) (d : Dict BlockHash IndexEntry),
      (hs.foldl Dict.erase d).get? h = some e → d.get? h = some e := by
    intro hs
    induction hs with
    | nil => exact fun d hd => hd
    | cons k hs ih => exact fun d hd => Dict.get?_of_erase (ih _ hd)
  simp only [onBlockFreed] at hget
  split at hget
  · exact hget
  · exact herase _ _ hget

theorem foldl_onBlockFreed_index {bs : List Nat} {h : BlockHash}
    (hget : (bs.foldl onBlockFreed c).prefixIndex.get? h = some e) :
    c.prefixIndex.get? h = some e := by
  induction bs generalizing c with
  | nil => exact hget
  | cons b bs ih => exact onBlockFreed_index (ih hget)

/-- The callback only removes entries. -/
theorem onPaged_index {α : Type} {op : Manager → α × Manager} {h : BlockHash}
    (hget : (c.onPaged op).2.prefixIndex.get? h = some e) : c.prefixIndex.get? h = some e :=
  foldl_onBlockFreed_index (c := { c with pagedCache := (op c.pagedCache).2 }) hget

theorem matchLoop_entry (tokens : List Int) (salt : Option (List κ)) (n i : Nat) (h : BlockHash)
    (len : Nat) {best : Option IndexEntry} {Q : IndexEntry → Prop} (hbest : ∀ e, best = some e → Q e)
    (hindex : ∀ h e, c.prefixIndex.get? h = some e → Q e) :
    ∀ e, c.matchLoop P tokens salt n i h len best = some e → Q e := by
  induction n generalizing i h len best with
  | zero => exact hbest
  | succ n ih =>
    simp only [matchLoop]
    apply ih
    intro e he
    split at he
    · next e' hget =>
      split at he
      · rw [Option.some.injEq] at he
        exact he ▸ hindex _ e' hget
      · exact hbest e he
    · exact hbest e he

/-- The match of a lookup is an entry of the index. -/
theorem findBestPrefixMatch_entry {tokens : List Int} {salt : Option (List κ)}
    {Q : IndexEntry → Prop} (hindex : ∀ h e, c.prefixIndex.get? h = some e → Q e)
    (he : c.findBestPrefixMatch P tokens salt = some e) : Q e := by
  simp only [findBestPrefixMatch] at he
  split at he
  · cases he
  · exact matchLoop_entry tokens salt _ 0 [] 0 nofun hindex e he

namespace Kept

/-- A call of the manager that leaves the pins, and the tables `T`. -/
theorem onPaged {α : Type} {op : Manager → α × Manager} (h : Kept P extra c)
    (ht : (op c.pagedCache).2.pool.requestTables = T)
    (hb : Books P (op c.pagedCache).2 (owners T c.pinnedBlocks extra))
    (hk : ∀ r t, T.get? r = some t → t.requestId = r) : Kept P extra (c.onPaged op).2 := by
  refine ⟨?_, ?_, fun k e hget => h.indexed k e (onPaged_index hget)⟩
  · simp only [pool, onPaged_pagedCache, onPaged_pinnedBlocks, ht]
    exact hb
  · simp only [pool, onPaged_pagedCache, ht]
    exact hk

end Kept

theorem pinned_pos (hb : b ∈ pins.keys) : pinned pins b = 1 := if_pos hb

theorem pinned_erase (pins : Dict Nat Nat) (b x : Nat) :
    pinned (pins.erase b) x = if x = b then 0 else pinned pins x := by
  simp only [pinned, Dict.mem_keys_erase]
  by_cases hx : x = b <;> simp [hx]

theorem pinned_set (pins : Dict Nat Nat) (b e x : Nat) :
    pinned (pins.set b e) x = if x = b then 1 else pinned pins x := by
  simp only [pinned, Dict.mem_keys_set]
  by_cases hx : x = b <;> simp [hx]

/-- Dropping a pin gives its own reference back and no other. -/
theorem Kept.dropPin (h : Kept P extra c) (hb : b ∈ c.pinnedBlocks.keys) :
    Kept P extra (c.dropPin b) ∧ (c.dropPin b).pinnedBlocks = c.pinnedBlocks.erase b ∧
      (c.dropPin b).pool.requestTables = c.pool.requestTables := by
  have hpos : 0 < owners c.pool.requestTables c.pinnedBlocks extra b := by
    rw [owners, pinned_pos hb]
    omega
  obtain ⟨hfree, ht⟩ := h.books.freeBlock hpos
  have howed : lose (owners c.pool.requestTables c.pinnedBlocks extra) b =
      owners c.pool.requestTables (c.pinnedBlocks.erase b) extra := by
    funext x
    simp only [lose, owners, pinned_erase]
    by_cases hx : x = b
    · rw [hx, Function.update_self, if_pos rfl, pinned_pos hb]
      omega
    · rw [Function.update_of_ne hx, if_neg hx, owners]
  rw [howed] at hfree
  refine ⟨⟨?_, ?_, ?_⟩, ?_, ?_⟩
  · simp only [BlockAwarePrefixCache.dropPin, BlockAwarePrefixCache.freeBlock, pool,
      onPaged_pagedCache, onPaged_pinnedBlocks, ht]
    exact hfree
  · simp only [BlockAwarePrefixCache.dropPin, BlockAwarePrefixCache.freeBlock, pool,
      onPaged_pagedCache, ht]
    exact h.keyed
  · intro k e hget
    exact h.indexed k e
      (onPaged_index (c := { c with pinnedBlocks := c.pinnedBlocks.erase b }) hget)
  · simp only [BlockAwarePrefixCache.dropPin, BlockAwarePrefixCache.freeBlock, onPaged_pinnedBlocks]
  · simp only [BlockAwarePrefixCache.dropPin, BlockAwarePrefixCache.freeBlock, pool,
      onPaged_pagedCache, ht]

theorem Kept.dropPins {bs : List Nat} (h : Kept P extra c) (hnd : bs.Nodup)
    (hbs : ∀ b ∈ bs, b ∈ c.pinnedBlocks.keys) :
    Kept P extra (bs.foldl BlockAwarePrefixCache.dropPin c) ∧
      (bs.foldl BlockAwarePrefixCache.dropPin c).pool.requestTables = c.pool.requestTables := by
  induction bs generalizing c with
  | nil => exact ⟨h, rfl⟩
  | cons b bs ih =>
    obtain ⟨hnot, hnd⟩ := List.nodup_cons.mp hnd
    obtain ⟨h₁, hp, ht⟩ := h.dropPin (hbs b (by simp))
    have hrest : ∀ x ∈ bs, x ∈ (c.dropPin b).pinnedBlocks.keys := by
      intro x hx
      rw [hp, Dict.mem_keys_erase]
      exact ⟨hbs x (by simp [hx]), fun hxb => hnot (hxb ▸ hx)⟩
    obtain ⟨h₂, ht₂⟩ := ih h₁ hnd hrest
    exact ⟨h₂, ht₂.trans ht⟩

theorem Kept.expirePinnedBlocks (h : Kept P extra c) (now : Nat) :
    Kept P extra (c.expirePinnedBlocks now) ∧
      (c.expirePinnedBlocks now).pool.requestTables = c.pool.requestTables := by
  have hsub : (c.pinnedBlocks.entries.filter (fun e => e.2 ≠ 0 ∧ now ≥ e.2)).map Prod.fst |>.Sublist
      c.pinnedBlocks.keys := List.filter_sublist.map _
  exact h.dropPins (c.pinnedBlocks.nodup.sublist hsub) (fun b hb => hsub.subset hb)

theorem Kept.unpinOne (h : Kept P extra c) (b : Nat) :
    Kept P extra (c.unpinOne b) ∧
      (c.unpinOne b).pool.requestTables = c.pool.requestTables := by
  simp only [BlockAwarePrefixCache.unpinOne]
  split
  · next hb =>
    obtain ⟨h₁, -, ht⟩ := h.dropPin hb
    exact ⟨h₁, ht⟩
  · exact ⟨h, rfl⟩

theorem Kept.unpinPrefix (h : Kept P extra c) (tokens : List Int) :
    Kept P extra (c.unpinPrefix P tokens) ∧
      (c.unpinPrefix P tokens).pool.requestTables = c.pool.requestTables := by
  have hall : ∀ (bs : List Nat) (c : BlockAwarePrefixCache), Kept P extra c →
      Kept P extra (bs.foldl BlockAwarePrefixCache.unpinOne c) ∧
        (bs.foldl BlockAwarePrefixCache.unpinOne c).pool.requestTables = c.pool.requestTables := by
    intro bs
    induction bs with
    | nil => exact fun c h => ⟨h, rfl⟩
    | cons b bs ih =>
      intro c h
      obtain ⟨h₁, ht₁⟩ := h.unpinOne b
      obtain ⟨h₂, ht₂⟩ := ih _ h₁
      exact ⟨h₂, ht₂.trans ht₁⟩
  simp only [BlockAwarePrefixCache.unpinPrefix]
  split
  · exact ⟨h, rfl⟩
  · split
    · exact ⟨h, rfl⟩
    · exact hall _ c h

theorem incrementRef_unknown (hb : b ∉ m.pool.allocatedBlocks) :
    m.incrementRef P b = (false, m) := by
  simp only [Manager.incrementRef, locked_eq, Pool.incrementRef, hb, if_false]

theorem Kept.pinOne (h : Kept P extra c) (expiry : Nat) (hne : b ≠ 0) :
    Kept P extra (c.pinOne P expiry b) := by
  simp only [BlockAwarePrefixCache.pinOne]
  split
  · exact h
  · next hpin =>
    by_cases hb : b ∈ c.pool.allocatedBlocks
    · obtain ⟨htrue, hinc, ht⟩ := h.books.incrementRef hb hne
      have hgain : gain (owners c.pool.requestTables c.pinnedBlocks extra) b =
          owners c.pool.requestTables (c.pinnedBlocks.set b expiry) extra := by
        have hzero : pinned c.pinnedBlocks b = 0 := if_neg hpin
        funext x
        simp only [gain, owners, pinned_set]
        by_cases hx : x = b
        · rw [hx, Function.update_self, if_pos rfl, hzero]
          omega
        · rw [Function.update_of_ne hx, if_neg hx, owners]
      rw [hgain] at hinc
      have hr : c.onPaged (fun m => m.incrementRef P b) =
          (true, (c.onPaged (fun m => m.incrementRef P b)).2) := Prod.ext htrue rfl
      rw [hr]
      refine ⟨?_, ?_, fun k e hget => h.indexed k e (onPaged_index hget)⟩
      · simp only [pool, onPaged_pagedCache, onPaged_pinnedBlocks, ht]
        exact hinc
      · simp only [pool, onPaged_pagedCache, ht]
        exact h.keyed
    · have hr : c.onPaged (fun m => m.incrementRef P b) =
          (false, (c.onPaged (fun m => m.incrementRef P b)).2) :=
        Prod.ext (by rw [onPaged_fst, incrementRef_unknown hb]) rfl
      rw [hr]
      refine h.onPaged ?_ ?_ h.keyed
      · rw [incrementRef_unknown hb]
      · rw [incrementRef_unknown hb]
        exact h.books

theorem Kept.pinPrefix (h : Kept P extra c) (tokens : List Int) (ttl : Option Nat)
    (sweepTime pinTime : Nat) : Kept P extra (c.pinPrefix P tokens ttl sweepTime pinTime) := by
  have hall : ∀ (expiry : Nat) (bs : List Nat) (c : BlockAwarePrefixCache), Kept P extra c →
      0 ∉ bs → Kept P extra (bs.foldl (BlockAwarePrefixCache.pinOne P expiry) c) := by
    intro expiry bs
    induction bs with
    | nil => exact fun c h _ => h
    | cons b bs ih =>
      intro c h hzero
      rw [List.mem_cons, not_or] at hzero
      exact ih _ (h.pinOne expiry (Ne.symm hzero.1)) hzero.2
  have hexp := (h.expirePinnedBlocks sweepTime).1
  simp only [BlockAwarePrefixCache.pinPrefix]
  split
  · exact h
  · split
    · exact hexp
    · next e he =>
      exact hall _ _ _ hexp (findBestPrefixMatch_entry (Q := fun e => 0 ∉ e.blockIds) hexp.indexed he)

variable {r : String} {t : BlockTable}

theorem listed_of_get (h : T.get? r = some t) (b : Nat) :
    listed T b = t.blockIds.count b + listed (T.erase r) b := Dict.total_of_get _ h

theorem listed_of_none (h : T.get? r = none) (b : Nat) :
    listed (T.erase r) b = listed T b := Dict.total_erase_of_none _ h

/-- The owners left once the table of `r` is gone. -/
theorem owners_erase (T : Dict String BlockTable) (pins : Dict Nat Nat) (extra : Nat → Nat)
    (r : String) : loseAll (owners T pins extra) (((T.get? r).map BlockTable.blockIds).getD []) =
      owners (T.erase r) pins extra := by
  funext b
  simp only [loseAll, owners]
  cases ht : T.get? r with
  | none =>
    rw [listed_of_none ht]
    simp
  | some t =>
    rw [listed_of_get ht]
    simp only [Option.map_some, Option.getD_some]
    omega

theorem count_le_owners (h : T.get? r = some t) (b : Nat) :
    t.blockIds.count b ≤ owners T pins extra b := by
  rw [owners, listed_of_get h]
  omega

theorem keyed_erase (hk : ∀ r t, T.get? r = some t → t.requestId = r) (r : String) :
    ∀ r' t, (T.erase r).get? r' = some t → t.requestId = r' :=
  fun r' t h => hk r' t (Dict.get?_of_erase h)

theorem Kept.releaseCache (h : Kept P extra c) (r : String) : Kept P extra (c.releaseCache r) := by
  simp only [BlockAwarePrefixCache.releaseCache]
  split
  · exact h
  · obtain ⟨hdel, ht⟩ := h.books.deleteBlockTable (r := r) (fun t ht => count_le_owners ht)
    rw [owners_erase] at hdel
    have h' : Kept P extra { c with requestTables := c.requestTables.erase r } :=
      ⟨h.books, h.keyed, h.indexed⟩
    exact h'.onPaged ht hdel (keyed_erase h.keyed r)

/-- Giving up the references of a table and forgetting it. -/
theorem Kept.retire (h : Kept P extra c) (hr : r ∈ c.requestTables.keys) :
    Kept P extra (c.retire r) := by
  obtain ⟨entry, hentry⟩ := (c.requestTables.mem_keys_iff r).mp hr
  have hdetach : ∀ c' : BlockAwarePrefixCache, c'.requestTables = c.requestTables →
      c'.pinnedBlocks = c.pinnedBlocks → c'.pool.requestTables = c.pool.requestTables →
      (∀ k e, c'.prefixIndex.get? k = some e → 0 ∉ e.blockIds) →
      Books P c'.pagedCache (owners (c.pool.requestTables.erase r) c.pinnedBlocks extra) →
      Kept P extra (c'.clearRequestEntryNoFree r) := by
    intro c' he hp ht hi hb
    simp only [BlockAwarePrefixCache.clearRequestEntryNoFree, he, hentry]
    have hpool : (c'.pagedCache.detachRequestTable r).2.pool =
        (c'.pagedCache.pool.detachRequestTable r).2 := by
      simp only [Manager.detachRequestTable, locked_eq]
    have hsame : Same c'.pagedCache.pool (c'.pagedCache.detachRequestTable r).2.pool := by
      rw [hpool]
      exact detachRequestTable_same _ r
    have htab : (c'.pagedCache.detachRequestTable r).2.pool.requestTables =
        c.pool.requestTables.erase r := by
      rw [hpool]
      exact congrArg (Dict.erase · r) ht
    refine ⟨?_, ?_, fun k e hget => hi k e (onPaged_index
      (c := { c' with requestTables := c.requestTables.erase r }) hget)⟩
    · simp only [pool, onPaged_pagedCache, onPaged_pinnedBlocks, htab, hp]
      exact hb.same hsame
    · simp only [pool, onPaged_pagedCache, htab]
      exact keyed_erase h.keyed r
  simp only [BlockAwarePrefixCache.retire]
  cases ht : c.pool.requestTables.get? r with
  | none =>
    refine hdetach c rfl rfl rfl h.indexed ?_
    rw [← owners_erase, ht, Option.map_none, Option.getD_none, loseAll_nil]
    exact h.books
  | some t =>
    obtain ⟨hrel, htab⟩ := h.books.releaseForEviction (fun b => count_le_owners ht b)
    refine hdetach _ (onPaged_requestTables _ _) (onPaged_pinnedBlocks _ _) ?_
      (fun k e hget => h.indexed k e (onPaged_index hget)) ?_
    · rw [pool, onPaged_pagedCache, htab]
    · rw [onPaged_pagedCache, ← owners_erase, ht]
      exact hrel

theorem Kept.handleMemoryPressure (h : Kept P extra c) (n : Int) :
    Kept P extra (c.onPaged (fun m => ((), exec P m (.handleMemoryPressure n)))).2 := by
  obtain ⟨hb, ht⟩ := h.books.handleMemoryPressure n
  exact h.onPaged ht hb h.keyed

/-- `clear` forgets every table and frees every block; only a cache without pins stands it. -/
theorem Kept.clear (h : Kept P (fun _ => 0) c) (hp : c.pinnedBlocks.entries = []) :
    Kept P (fun _ => 0) (c.clear P) := by
  obtain ⟨hb, ht⟩ := h.books.clear
  have hstats : (c.clear P).pagedCache = (c.pagedCache.clear P).2.resetStats := by
    simp only [BlockAwarePrefixCache.clear, onPaged_pagedCache]
  have hpins : (c.clear P).pinnedBlocks = c.pinnedBlocks := by
    simp only [BlockAwarePrefixCache.clear, onPaged_pinnedBlocks]
  have htab : (c.clear P).pool.requestTables = Dict.empty := by
    rw [pool, hstats]
    exact ht
  have hnone : owners Dict.empty c.pinnedBlocks (fun _ => 0) = fun _ => 0 := by
    funext b
    simp [owners, listed, pinned, Dict.keys, hp]
  refine ⟨?_, ?_, ?_⟩
  · rw [htab, hpins, hnone, hstats]
    exact hb.same (show Same _ (Pool.resetStats _) from Same.bump _ _)
  · intro r t hget
    rw [htab, Dict.get?_empty] at hget
    cases hget
  · intro k e hget
    have := onPaged_index (c := { c with
      requestTables := Dict.empty, prefixIndex := Dict.empty, blockIdToHashes := Dict.empty }) hget
    simp only [Dict.get?_empty] at this
    cases this

structure Storing (P : Params κ) (T : Dict String BlockTable) (pins : Dict Nat Nat)
    (owed : Nat → Nat) (c : BlockAwarePrefixCache) : Prop where
  books : Books P c.pagedCache owed
  tables : c.pool.requestTables = T
  pins : c.pinnedBlocks = pins
  indexed : ∀ h e, c.prefixIndex.get? h = some e → 0 ∉ e.blockIds

def withTable (t : BlockTable) (rest : Nat → Nat) (b : Nat) : Nat := t.blockIds.count b + rest b

theorem withTable_addBlock (t : BlockTable) (rest : Nat → Nat) (b n : Nat) :
    withTable (addBlock t b n) rest = gain (withTable t rest) b := by
  funext x
  simp only [withTable, addBlock, gain, List.count_append]
  by_cases hx : x = b
  · rw [hx, Function.update_self, List.count_singleton_self]
    omega
  · rw [Function.update_of_ne hx, List.count_singleton, if_neg (by simpa using Ne.symm hx)]
    simp only [withTable]
    omega

theorem lose_gain : lose (gain owed b) b = owed := by
  funext x
  by_cases hx : x = b
  · rw [hx, lose, Function.update_self, gain, Function.update_self, Nat.add_sub_cancel]
  · rw [lose, Function.update_of_ne hx, gain, Function.update_of_ne hx]

namespace Storing

theorem onPaged {α : Type} {f : Manager → α × Manager} {owed' : Nat → Nat}
    (h : Storing P T pins owed c) (hb : Books P (f c.pagedCache).2 owed')
    (ht : (f c.pagedCache).2.pool.requestTables = c.pool.requestTables) :
    Storing P T pins owed' (c.onPaged f).2 := by
  refine ⟨?_, ?_, (onPaged_pinnedBlocks c f).trans h.pins,
    fun k e hget => h.indexed k e (onPaged_index hget)⟩
  · rw [onPaged_pagedCache]
    exact hb
  · rw [pool, onPaged_pagedCache, ht, h.tables]

theorem freeBlock (h : Storing P T pins owed c) (hb : 0 < owed b) :
    Storing P T pins (lose owed b) (c.freeBlock b) := by
  obtain ⟨hfree, ht⟩ := h.books.freeBlock hb
  exact h.onPaged hfree ht

/-- What `allocate_block` with memory pressure in between answers. -/
theorem obtainBlock (h : Storing P T pins owed c) :
    ((c.obtainBlock P).1 = .ok none ∧ Storing P T pins owed (c.obtainBlock P).2) ∨
      ∃ b, (c.obtainBlock P).1 = .ok (some b) ∧ b ≠ 0 ∧ owed b = 0 ∧
        (∀ k, ¬ (c.obtainBlock P).2.pool.cachedBlockHashToBlock.Registered k b) ∧
        Storing P T pins (gain owed b) (c.obtainBlock P).2 := by
  have halloc : ∀ c : BlockAwarePrefixCache, Storing P T pins owed c →
      (∃ c', c.onPaged (fun m => m.allocateBlock P) = (.ok none, c') ∧ Storing P T pins owed c') ∨
        ∃ b c', c.onPaged (fun m => m.allocateBlock P) = (.ok (some b), c') ∧ b ≠ 0 ∧ owed b = 0 ∧
          (∀ k, ¬ c'.pool.cachedBlockHashToBlock.Registered k b) ∧
          Storing P T pins (gain owed b) c' := by
    intro c h
    obtain ⟨ht, ⟨hnone, hb⟩ | ⟨b, hsome, hne, hzero, hl, hb⟩⟩ := h.books.allocateBlock
    · exact Or.inl ⟨_, Prod.ext hnone rfl, h.onPaged hb ht⟩
    · refine Or.inr ⟨b, _, Prod.ext hsome rfl, hne, hzero, ?_, h.onPaged hb ht⟩
      rw [pool, onPaged_pagedCache]
      exact hl
  simp only [BlockAwarePrefixCache.obtainBlock]
  rcases halloc c h with ⟨c', heq, h'⟩ | ⟨b, c', heq, hres⟩
  · obtain ⟨hp, ht⟩ := h'.books.handleMemoryPressure 1
    have hpress : Storing P T pins owed (c'.onPaged (fun m => m.handleMemoryPressure 1)).2 :=
      h'.onPaged hp ht
    rw [heq]
    dsimp only
    generalize hq : c'.onPaged (fun m => m.handleMemoryPressure 1) = q at hpress
    obtain ⟨ok, d⟩ := q
    cases ok with
    | false => exact Or.inl ⟨rfl, hpress⟩
    | true =>
      rcases halloc d hpress with ⟨d', heq', h''⟩ | ⟨b, d', heq', hres⟩
      · dsimp only
        rw [heq']
        exact Or.inl ⟨rfl, h''⟩
      · dsimp only
        rw [heq']
        exact Or.inr ⟨b, rfl, hres⟩
  · rw [heq]
    exact Or.inr ⟨b, rfl, hres⟩

/-- Writing the metadata of a block that no entry lists yet. -/
theorem fillBlock (h : Storing P T pins owed c) (hpos : 0 < owed b)
    (hl : ∀ k, ¬ c.pool.cachedBlockHashToBlock.Registered k b) (ts : List Int)
    (parent : Option BlockHash) (salt : Option (List κ)) :
    Storing P T pins owed (c.fillBlock P b ts parent salt) := by
  obtain ⟨hb, hne⟩ := h.books.owes.live b hpos
  have hrel := h.books.relabel (f := fun d =>
    { d with tokenCount := ts.length, blockHash := some (P.hash parent ts salt) })
    hne hl rfl rfl rfl rfl
  have hedit : Storing P T pins owed (c.edit (fun s =>
      ((s.modify b (fun d => { d with tokenCount := ts.length })).bump (fun u =>
        { u with totalTokensCached := u.totalTokensCached + ts.length })).modify b (fun d =>
          { d with blockHash := some (P.hash parent ts salt) }))) :=
    ⟨hrel.same (.fill ..), h.tables, h.pins, h.indexed⟩
  obtain ⟨hreg, ht⟩ := hedit.books.registerBlockHash hb hne hl ts parent salt
  exact hedit.onPaged hreg ht

/-- A round of the store loop keeps the books of the table it extends. -/
theorem storeRound (h : Storing P T pins (withTable t rest) c) (tier : StoreTier)
    (args : KeyArgs κ) (existingTokens : Nat) (newTokens : List Int) (i : Nat) :
    Storing P T pins (withTable (c.storeRound P tier args existingTokens newTokens i t).table rest)
        (c.storeRound P tier args existingTokens newTokens i t).cache ∧
      (c.storeRound P tier args existingTokens newTokens i t).table.requestId = t.requestId := by
  simp only [BlockAwarePrefixCache.storeRound]
  cases resolveBlockExtraKeys (existingTokens + (i + 1) * P.blockSize) args with
  | error e => exact ⟨h, rfl⟩
  | ok salt =>
    dsimp only
    generalize c.tailHash t = parent
    generalize blockTokens P.blockSize newTokens i = ts
    obtain ⟨hb, ht, hres⟩ := h.books.findCachedBlock ts parent salt
    have hf : Storing P T pins (withTable t rest)
        (c.onPaged (fun m => m.findCachedBlock P ts parent salt)).2 := h.onPaged hb ht
    rw [onPaged_fst]
    cases hc : (c.pagedCache.findCachedBlock P ts parent salt).1.filter
        (fun _ => tier.resident i) with
    | some b =>
      dsimp only
      have hfound := hres b (Option.eq_some_of_filter_eq_some hc)
      have hheld : b ∈ (c.onPaged (fun m =>
          m.findCachedBlock P ts parent salt)).2.pool.allocatedBlocks := by
        rw [pool, onPaged_pagedCache]
        exact hfound.1
      obtain ⟨-, hinc, hti⟩ := hf.books.incrementRef hheld hfound.2.1
      rw [← withTable_addBlock t rest b ts.length] at hinc
      exact ⟨hf.onPaged (f := fun m => m.incrementRef P b) hinc hti, rfl⟩
    | none =>
      dsimp only
      generalize hq : (c.onPaged (fun m => m.findCachedBlock P ts parent salt)).2.obtainBlock P = q
      rcases hf.obtainBlock with ⟨h₁, h₂⟩ | ⟨b, h₁, hne, hzero, hl, h₂⟩
      · rw [hq] at h₁ h₂
        obtain ⟨o, d⟩ := q
        dsimp only at h₁ h₂
        subst h₁
        exact ⟨h₂, rfl⟩
      · rw [hq] at h₁ h₂ hl
        obtain ⟨o, d⟩ := q
        dsimp only at h₁ h₂ hl
        subst h₁
        have hpos : 0 < gain (withTable t rest) b b := by
          rw [gain, Function.update_self]
          omega
        have hfill := h₂.fillBlock hpos hl ts parent salt
        dsimp only
        split
        · rw [← withTable_addBlock t rest b ts.length] at hfill
          exact ⟨hfill, rfl⟩
        · have hgive := hfill.freeBlock hpos
          rw [lose_gain] at hgive
          exact ⟨hgive, rfl⟩

/-- The loop ends by writing back a table whose books are right. -/
theorem storeLoop (h : Storing P T pins (withTable t rest) c) (tier : StoreTier)
    (args : KeyArgs κ) (existingTokens : Nat) (newTokens : List Int) (n i : Nat) :
    ∃ t' c', (c.storeLoop P tier args existingTokens newTokens n i t).2 = c'.setTable t' ∧
      t'.requestId = t.requestId ∧ Storing P T pins (withTable t' rest) c' ∧
      ∀ u, (c.storeLoop P tier args existingTokens newTokens n i t).1 = .ok u → u = t' := by
  induction n generalizing i t c with
  | zero => exact ⟨t, c, rfl, rfl, h, fun u hu => (Except.ok.inj hu).symm⟩
  | succ n ih =>
    obtain ⟨hround, hid⟩ := h.storeRound tier args existingTokens newTokens i
    simp only [BlockAwarePrefixCache.storeLoop]
    generalize c.storeRound P tier args existingTokens newTokens i t = r at hround hid
    obtain ⟨outcome, table, cache⟩ := r
    cases outcome with
    | next =>
      obtain ⟨t', c', h₁, h₂, h₃, h₄⟩ := ih hround (i + 1)
      exact ⟨t', c', h₁, h₂.trans hid, h₃, h₄⟩
    | stop => exact ⟨table, cache, rfl, hid, hround, fun u hu => (Except.ok.inj hu).symm⟩
    | raised e => exact ⟨table, cache, rfl, hid, hround, fun u hu => nomatch hu⟩

/-- Entering a block changes its digest only when it had none. -/
theorem indexHash_edit (h : Storing P T pins owed c) (hne : b ≠ 0) (parent : BlockHash)
    (ts : List Int) (salt : Option (List κ)) (hb : b ∈ c.pool.allocatedBlocks) :
    Storing P T pins owed (c.edit (fun s => s.modify b (fun d =>
      { d with blockHash := some (indexHash P c.pool b parent ts salt) }))) := by
  cases hk : (c.pool.blocks b).blockHash with
  | none =>
    exact ⟨h.books.relabel (f := fun d =>
      { d with blockHash := some (indexHash P c.pool b parent ts salt) }) hne
      (fun k => h.books.not_registered hk k) rfl rfl rfl rfl, h.tables, h.pins, h.indexed⟩
  | some k =>
    have hself : indexHash P c.pool b parent ts salt = k := by
      simp only [indexHash, hb, if_true, hk]
    have hsame : Same c.pagedCache.pool (c.pagedCache.pool.modify b (fun d =>
        { d with blockHash := some (indexHash P c.pool b parent ts salt) })) :=
      Same.modify _ b _ rfl (by rw [hself]; exact hk.symm) rfl rfl
    exact ⟨h.books.same hsame, h.tables, h.pins, h.indexed⟩

theorem updateLoop (tokens : List Int) {blockIds : List Nat} (salt : Option (List κ))
    (hids : 0 ∉ blockIds) {bs : List Nat} (hbs : 0 ∉ bs) (i : Nat) (parent : BlockHash)
    (len : Nat) (h : Storing P T pins owed c) :
    Storing P T pins owed (updateLoop P tokens blockIds salt bs i parent len c) := by
  induction bs generalizing i parent len c with
  | nil => exact h
  | cons b bs ih =>
    rw [List.mem_cons, not_or] at hbs
    simp only [BlockAwarePrefixCache.updateLoop]
    split
    · exact h
    · apply ih hbs.2
      have hedit : Storing P T pins owed (if b ∈ c.pool.allocatedBlocks then
          c.edit (fun s => s.modify b (fun d => { d with
            blockHash := some (indexHash P c.pool b parent (blockTokens P.blockSize tokens i) salt) }))
          else c) := by
        split
        · next hb => exact h.indexHash_edit (Ne.symm hbs.1) parent _ salt hb
        · exact h
      refine ⟨hedit.books, hedit.tables, hedit.pins, fun k e hget => ?_⟩
      simp only [indexOne] at hget
      rw [Dict.get?_set] at hget
      split at hget
      · rw [Option.some.injEq] at hget
        rw [← hget]
        exact fun hz => hids (List.mem_of_mem_take hz)
      · exact hedit.indexed k e hget

end Storing

theorem owners_of_get (h : T.get? r = some t) :
    owners T pins extra = withTable t (owners (T.erase r) pins extra) := by
  funext b
  rw [withTable, owners, owners, listed_of_get h, Nat.add_assoc]

theorem Kept.storing (h : Kept P extra c)
    (ht : c.pool.requestTables.get? r = some t) :
    Storing P c.pool.requestTables c.pinnedBlocks
      (withTable t (owners (c.pool.requestTables.erase r) c.pinnedBlocks extra)) c :=
  ⟨owners_of_get ht ▸ h.books, rfl, rfl, h.indexed⟩

/-- Writing the table of a request back. -/
theorem Storing.setTable (hk : ∀ r u, T.get? r = some u → u.requestId = r)
    (h : Storing P T pins (withTable t (owners (T.erase t.requestId) pins extra)) c) :
    Kept P extra (c.setTable t) := by
  have htab : (c.setTable t).pool.requestTables = T.set t.requestId t :=
    congrArg (Dict.set · t.requestId t) h.tables
  have hpins : (c.setTable t).pinnedBlocks = pins := h.pins
  refine ⟨?_, ?_, h.indexed⟩
  · have hown : owners (T.set t.requestId t) pins extra =
        withTable t (owners (T.erase t.requestId) pins extra) := by
      funext b
      rw [withTable, owners, owners, listed, Dict.total_set, ← listed, Nat.add_assoc]
    rw [htab, hpins, hown]
    exact h.books.same (Same.setTable _ t)
  · intro r u hu
    rw [htab, Dict.get?_set] at hu
    split at hu
    · next hr => rw [← Option.some.inj hu, hr]
    · exact hk r u hu

/-- Replacing no table or an empty one. -/
theorem Kept.createBlockTable (h : Kept P extra c)
    (hempty : ∀ t, c.pool.requestTables.get? r = some t → t.blockIds = []) :
    Kept P extra (c.createBlockTable r) ∧
      (c.createBlockTable r).pool.requestTables.get? r = some { requestId := r } := by
  have hpool : (c.createBlockTable r).pool = c.pool.setTable { requestId := r } := by
    rw [pool, createBlockTable_pagedCache]
    simp only [Manager.createBlockTable, locked_eq, Pool.createBlockTable]
  have hpins : (c.createBlockTable r).pinnedBlocks = c.pinnedBlocks := by
    simp only [BlockAwarePrefixCache.createBlockTable, onPaged_pinnedBlocks, keepTable]
    split
    · split <;> rfl
    · rfl
  have htab : (c.createBlockTable r).pool.requestTables =
      c.pool.requestTables.set r { requestId := r } := by
    rw [hpool]
    rfl
  have hold : ∀ b, listed c.pool.requestTables b = listed (c.pool.requestTables.erase r) b := by
    intro b
    cases ht : c.pool.requestTables.get? r with
    | none => rw [listed_of_none ht]
    | some t => rw [listed_of_get ht, hempty t ht, List.count_nil, Nat.zero_add]
  refine ⟨⟨?_, ?_, ?_⟩, ?_⟩
  · have hown : owners (c.pool.requestTables.set r { requestId := r }) c.pinnedBlocks extra =
        owners c.pool.requestTables c.pinnedBlocks extra := by
      funext b
      rw [owners, owners, hold, listed, Dict.total_set, ← listed]
      simp
    rw [htab, hpins, hown]
    refine h.books.same ?_
    rw [show (c.createBlockTable r).pagedCache.pool = _ from hpool]
    exact Same.setTable _ _
  · intro r' u hu
    rw [htab, Dict.get?_set] at hu
    split at hu
    · next hr => rw [← Option.some.inj hu, hr]
    · exact h.keyed r' u hu
  · intro k e hget
    simp only [BlockAwarePrefixCache.createBlockTable] at hget
    have hget := onPaged_index hget
    unfold keepTable at hget
    split at hget
    · split at hget <;> exact h.indexed k e hget
    · exact h.indexed k e hget
  · rw [htab, Dict.get?_set_self]

theorem Kept.openTable (h : Kept P extra c) (r : String) :
    Kept P extra (c.openTable r).2 ∧
      (c.openTable r).2.pool.requestTables.get? r = some (c.openTable r).1 ∧
      (c.openTable r).1.requestId = r := by
  simp only [BlockAwarePrefixCache.openTable]
  cases ht : c.pool.requestTables.get? r with
  | none =>
    obtain ⟨h₁, h₂⟩ := h.createBlockTable (r := r) (by simp [ht])
    exact ⟨h₁, h₂, rfl⟩
  | some t =>
    dsimp only
    split
    · next hnil =>
      obtain ⟨h₁, h₂⟩ := h.createBlockTable (r := r) (by simpa [ht] using hnil)
      exact ⟨h₁, h₂, rfl⟩
    · exact ⟨h, ht, h.keyed r t ht⟩

theorem Kept.updatePrefixIndex (h : Kept P extra c) (tokens : List Int) {blockIds : List Nat}
    (hids : 0 ∉ blockIds) (salt : Option (List κ)) :
    Kept P extra (c.updatePrefixIndex P tokens blockIds salt) := by
  have hst : Storing P c.pool.requestTables c.pinnedBlocks
      (owners c.pool.requestTables c.pinnedBlocks extra) c := ⟨h.books, rfl, rfl, h.indexed⟩
  have hres := hst.updateLoop tokens salt hids hids 0 [] 0
  refine ⟨?_, ?_, hres.indexed⟩
  · rw [BlockAwarePrefixCache.updatePrefixIndex, hres.tables, hres.pins]
    exact hres.books
  · rw [BlockAwarePrefixCache.updatePrefixIndex, hres.tables]
    exact h.keyed

theorem Kept.storeCache (h : Kept P extra c) (tier : StoreTier) (r : String) (tokens : List Int)
    (args : KeyArgs κ) : Kept P extra (c.storeCache P tier r tokens args).2 := by
  obtain ⟨ho, hget, hid⟩ := h.openTable r
  simp only [BlockAwarePrefixCache.storeCache]
  generalize c.openTable r = o at ho hget hid ⊢
  split
  · exact h
  · split
    · exact ho
    · split
      · exact ho
      · obtain ⟨t', c', heq, hid', hloop, hout⟩ := (ho.storing hget).storeLoop tier args
          o.1.numTokens (tokens.drop o.1.numTokens)
          ((tokens.drop o.1.numTokens).length / P.blockSize) 0
        rw [show r = t'.requestId from hid.symm.trans hid'.symm] at hloop
        have hset := hloop.setTable ho.keyed
        rw [← heq] at hset
        generalize o.2.storeLoop P tier args o.1.numTokens (tokens.drop o.1.numTokens)
          ((tokens.drop o.1.numTokens).length / P.blockSize) 0 o.1 = q at hset hout
        obtain ⟨outcome, d⟩ := q
        cases outcome with
        | error e => exact hset
        | ok u =>
          have hzero : 0 ∉ u.blockIds := by
            rw [hout u rfl]
            intro hz
            have hpos := List.count_pos_iff.mpr hz
            exact (hloop.books.owes.live 0 (Nat.lt_of_lt_of_le hpos (Nat.le_add_right _ _))).2 rfl
          have hupd := hset.updatePrefixIndex tokens hzero args.extraKeys
          exact ⟨hupd.books, hupd.keyed, hupd.indexed⟩

/-- Storing, releasing and retiring requests, pinning and unpinning, expiry at any time, memory
pressure, and clearing a cache without pins. -/
def Balancing (c : BlockAwarePrefixCache) : Call κ → Prop
  | .storeCache _ _ _ _ => True
  | .releaseCache _ => True
  | .clearRequestEntry _ => True
  | .retire r => r ∈ c.requestTables.keys
  | .pinPrefix _ _ _ _ => True
  | .unpinPrefix _ => True
  | .expirePinnedBlocks _ => True
  | .clear => c.pinnedBlocks.entries = []
  | .paged op => ∃ n, op = .handleMemoryPressure n
  | .fetchCache .. => False
  | .clearRequestEntryNoFree _ => False
  | .forkCache _ _ => False

/-- A cache over a manager just constructed. -/
def Starts (P : Params κ) (c : BlockAwarePrefixCache) : Prop :=
  ∃ m, Manager.init P = .ok m ∧ c = BlockAwarePrefixCache.init m

theorem kept_init (h : Starts P c) : Kept P (fun _ => 0) c := by
  obtain ⟨m, hm, rfl⟩ := h
  have ht := init_tables hm
  refine ⟨?_, ?_, by simp [BlockAwarePrefixCache.init]⟩
  · have hnone : owners Dict.empty Dict.empty (fun _ => 0) = fun _ => 0 := by
      funext b
      simp [owners, listed, pinned, show (Dict.empty : Dict Nat Nat).keys = [] from rfl]
    simp only [BlockAwarePrefixCache.init, pool, Manager.registerBlockFreedCallback, ht, hnone]
    exact (books_init hm).same (.refl _)
  · intro r t hget
    simp only [BlockAwarePrefixCache.init, pool, Manager.registerBlockFreedCallback, ht,
      Dict.get?_empty] at hget
    cases hget

theorem kept_step (h : Kept P (fun _ => 0) c) {call : Call κ} (hok : Balancing c call) :
    Kept P (fun _ => 0) (step P c call) := by
  cases call with
  | storeCache tier r tokens args => exact h.storeCache tier r tokens args
  | fetchCache ssd now r tokens args => exact hok.elim
  | releaseCache r => exact h.releaseCache r
  | clearRequestEntry r => exact h.releaseCache r
  | clearRequestEntryNoFree r => exact hok.elim
  | retire r => exact h.retire hok
  | forkCache source new => exact hok.elim
  | pinPrefix tokens ttl sweepTime pinTime => exact h.pinPrefix tokens ttl sweepTime pinTime
  | unpinPrefix tokens => exact (h.unpinPrefix tokens).1
  | expirePinnedBlocks now => exact (h.expirePinnedBlocks now).1
  | clear => exact h.clear hok
  | paged op =>
    obtain ⟨n, rfl⟩ := hok
    exact h.handleMemoryPressure n

/-- A pinned block carries one reference beside those of the tables, and a block that a table
lists is allocated with one reference for every place and every pin. -/
structure PinsOwned (c : BlockAwarePrefixCache) : Prop where
  pins : ∀ b ∈ c.pinnedBlocks.keys, b ∈ c.pool.allocatedBlocks ∧
    (c.pool.blocks b).refCount = listed c.pool.requestTables b + 1
  tabled : ∀ r t, c.pool.requestTables.get? r = some t → ∀ b ∈ t.blockIds,
    b ∈ c.pool.allocatedBlocks ∧
      (c.pool.blocks b).refCount = listed c.pool.requestTables b + pinned c.pinnedBlocks b

theorem Kept.pinsOwned (h : Kept P (fun _ => 0) c) : PinsOwned c := by
  have hexact : ∀ b, 0 < listed c.pool.requestTables b + pinned c.pinnedBlocks b →
      b ∈ c.pool.allocatedBlocks ∧ (c.pool.blocks b).refCount =
        listed c.pool.requestTables b + pinned c.pinnedBlocks b := by
    intro b hpos
    obtain ⟨hb, hne⟩ := h.books.owes.live b (by simpa [owners] using hpos)
    exact ⟨hb, by simpa [owners] using h.books.owes.counted b hb hne⟩
  refine ⟨fun b hb => ?_, fun r t ht b hb => ?_⟩
  · have hone : pinned c.pinnedBlocks b = 1 := pinned_pos hb
    obtain ⟨hin, hr⟩ := hexact b (by omega)
    rw [hone] at hr
    exact ⟨hin, hr⟩
  · have hcount := List.count_pos_iff.mpr hb
    have hlist := listed_of_get ht b
    exact hexact b (by omega)

/-- In every run that clears the cache only while nothing is pinned, pins and tables own their
references, and neither an expiry at any time nor an unpin takes one from a table. -/
theorem pins_balanced (h : Reached (Starts P) Balancing (step P) c) :
    PinsOwned c ∧
      (∀ now, (c.expirePinnedBlocks now).pool.requestTables = c.pool.requestTables ∧
        PinsOwned (c.expirePinnedBlocks now)) ∧
      ∀ tokens, (c.unpinPrefix P tokens).pool.requestTables = c.pool.requestTables ∧
        PinsOwned (c.unpinPrefix P tokens) := by
  have hk : Kept P (fun _ => 0) c := h.invariant (fun c hc => kept_init hc)
    (fun c call _ hk hok => kept_step hk hok)
  refine ⟨hk.pinsOwned, fun now => ?_, fun tokens => ?_⟩
  · obtain ⟨h₁, ht⟩ := hk.expirePinnedBlocks now
    exact ⟨ht, h₁.pinsOwned⟩
  · obtain ⟨h₁, ht⟩ := hk.unpinPrefix tokens
    exact ⟨ht, h₁.pinsOwned⟩

def tinyRun (n : Nat) (calls : List (Call Int)) : BlockAwarePrefixCache :=
  runList (step (tiny n)) (BlockAwarePrefixCache.init (tinyStart n)) calls

theorem tinyRun_reached {ok : BlockAwarePrefixCache → Call Int → Prop} (n : Nat)
    (calls : List (Call Int)) (hok : AllOk ok (step (tiny n))
      (BlockAwarePrefixCache.init (tinyStart n)) calls) :
    Reached (Starts (tiny n)) ok (step (tiny n)) (tinyRun n calls) :=
  Reached.runList (.start ⟨_, init_started _ _, rfl⟩) hok

theorem pins_balanced_expired :
    PinsOwned ((tinyRun 2 [.storeCache {} "a" [7] {}, .pinPrefix [7] (some 3) 0 0,
      .releaseCache "a", .storeCache {} "b" [7, 8] {}]).expirePinnedBlocks 5) :=
  ((pins_balanced (P := tiny 2) (tinyRun_reached 2 [.storeCache {} "a" [7] {},
    .pinPrefix [7] (some 3) 0 0, .releaseCache "a", .storeCache {} "b" [7, 8] {}]
    ⟨trivial, trivial, trivial, trivial, trivial⟩)).2.1 5).2

/-- Nor does a reference outlive its owners: the count of an allocated block is that of its places and
its pin, and a block that is not allocated has neither. -/
theorem references_owned (h : Reached (Starts P) Balancing (step P) c) (b : Nat) (hne : b ≠ 0) :
    (b ∈ c.pool.allocatedBlocks → (c.pool.blocks b).refCount =
      listed c.pool.requestTables b + pinned c.pinnedBlocks b) ∧
    (b ∉ c.pool.allocatedBlocks → listed c.pool.requestTables b = 0 ∧ b ∉ c.pinnedBlocks.keys) := by
  have hk : Kept P (fun _ => 0) c := h.invariant (fun c hc => kept_init hc)
    (fun c call _ hk hok => kept_step hk hok)
  constructor
  · exact fun hb => by simpa [owners] using hk.books.owes.counted b hb hne
  · intro hb
    have hnone : ¬ 0 < owners c.pool.requestTables c.pinnedBlocks (fun _ => 0) b :=
      fun hpos => hb (hk.books.owes.live b hpos).1
    simp only [owners, Nat.add_zero] at hnone
    refine ⟨by omega, fun hpin => ?_⟩
    have := pinned_pos hpin
    omega

theorem references_owned_retired :
    ((tinyRun 2 [.storeCache {} "a" [7] {}, .pinPrefix [7] none 0 0, .retire "a"]).pool.blocks
      1).refCount = 1 := by
  have howned := references_owned (P := tiny 2) (tinyRun_reached 2 [.storeCache {} "a" [7] {},
    .pinPrefix [7] none 0 0, .retire "a"] ⟨trivial, trivial, show "a" ∈ _ by decide +kernel, trivial⟩)
  exact ((howned 1 (by decide)).1 (by decide +kernel)).trans (by decide +kernel)

/-- A pin survives `clear` and its block goes to another request, which loses it at the expiry. -/
theorem expiry_frees_listed_block :
    let c := tinyRun 2 [.storeCache {} "a" [7] {}, .pinPrefix [7] (some 3) 0 0, .clear,
      .storeCache {} "b" [8] {}]
    c.pinnedBlocks.keys = [1] ∧ c.pool.requestTables.get? "b" = some ⟨"b", [1], 1⟩ ∧
      (c.pool.blocks 1).refCount = 1 ∧
      (c.expirePinnedBlocks 5).pool.requestTables.get? "b" = some ⟨"b", [1], 1⟩ ∧
      1 ∉ (c.expirePinnedBlocks 5).pool.allocatedBlocks := by
  decide +kernel

end FusionMlx.PinnedBlocks
