import FusionMlx.Cache.IntactIndex
import FusionMlx.Cache.ReturnedReferences

/-!
# The index through stores, lookups and evictions

A call disturbs the index when it may take a block that a table or a deeper
entry lists. Every call that does not disturb it leaves all tables and entries
linked, with the blocks that a store adds.
-/
namespace FusionMlx.IntactCalls

open BlockHashing BlockPool OrderedDict PoolRefinement LookupRefinement
open OwnedBlocks PagedCacheManager ManagerRuns PoolInvariant ReferenceBooks
open StandingCalls FetchReferences LinkedBlocks IntactIndex PrefixCache PrefixCache.BlockAwarePrefixCache
open CopyRefinement (room room_eq growBlocks_count)
open PoolAccounting (reclaimable)

variable {κ : Type} {P : Params κ} {c c' c'' c₀ : BlockAwarePrefixCache} {told told' t₀ : List Nat}
variable {short : Prop}
variable {t : BlockTable} {p p' : Option BlockHash} {ts : List Int} {salt : Option (List κ)}

/-- An allocated block with a digest and without a reference. -/
def Idle (s : Pool) (b : Nat) : Prop :=
  b ∈ s.allocatedBlocks ∧ (s.blocks b).refCount ≤ 0 ∧ (s.blocks b).blockHash ≠ none

/-- An idle block that names a parent: the cascade behind a freed parent takes it. -/
def IdleChild (s : Pool) (b : Nat) : Prop := Idle s b ∧ (s.blocks b).parentHash ≠ none

def newBlocks (P : Params κ) (c : BlockAwarePrefixCache) (r : String) (tokens : List Int) : Nat :=
  (tokens.drop (c.openTable r).1.numTokens).length / P.blockSize

/-- The call gives up every reference that the block has. -/
def Frees (c : BlockAwarePrefixCache) : Call κ → Nat → Prop
  | .releaseCache r, b | .clearRequestEntry r, b => c.requestTables.get? r ≠ none ∧ b ≠ 0 ∧
      b ∈ tableIds c.pool r ∧ (c.pool.blocks b).refCount ≤ (tableIds c.pool r).count b
  | .paged (.freeBlock x), b => b = x ∧ b ≠ 0 ∧ (c.pool.blocks b).refCount ≤ 1
  | _, _ => False

/-- The idle blocks that the call may take: any of them when a store runs out of room, those under
the request's digests when a lookup drops what the hash map gave it for a longer index entry, those
that memory pressure reclaims, and children of what is freed. -/
def MayEvict (P : Params κ) (c : BlockAwarePrefixCache) : Call κ → Nat → Prop
  | .storeCache _ r tokens _, b =>
    Idle c.pool b ∧ room P c.pool < newBlocks P c r tokens ∨ IdleChild c.pool b
  | .fetchCache _ _ _ tokens args, b =>
    (∃ e, c.findBestPrefixMatch P tokens args.extraKeys = some e ∧ b ∉ e.blockIds) ∧
      (Idle c.pool b ∧ (∃ j, (c.pool.blocks b).blockHash =
        some (chainAt P tokens (resolvedSalt P args) j)) ∨ IdleChild c.pool b)
  | .releaseCache r, b | .clearRequestEntry r, b =>
    c.requestTables.get? r ≠ none ∧ IdleChild c.pool b
  | .paged (.freeBlock _), b | .paged (.evictLruBlocks _), b => IdleChild c.pool b
  | .paged (.handleMemoryPressure n), b => b ∈ reclaimable c.pool n ∨ IdleChild c.pool b
  | _, _ => False

/-- The call drops the request's table. -/
def Drops : Call κ → String → Prop
  | .releaseCache r', r | .clearRequestEntry r', r => r = r'
  | _, _ => False

/-- A block that the call may take is listed by no table that stays, and by no deeper entry: an
entry that lists it ends with it, or with a block that the call frees. -/
def Spares (P : Params κ) (c : BlockAwarePrefixCache) (call : Call κ) : Prop :=
  ∀ b, Frees c call b ∨ MayEvict P c call b →
    (∀ r t, ¬ Drops call r → c.pool.requestTables.get? r = some t → b ∉ t.blockIds) ∧
    ∀ k e l, c.prefixIndex.get? k = some e → b ∈ e.blockIds → e.blockIds.getLast? = some l →
      l = b ∨ Frees c call l

theorem idle_of_holds {b : Nat} {k : BlockHash} (hk : Holds c.pool b k)
    (hr : (c.pool.blocks b).refCount ≤ 0) : Idle c.pool b := by
  refine ⟨hk.1, hr, ?_⟩
  rw [hk.2]
  exact Option.some_ne_none k

/-- No block told is listed by a table or an entry that was there before and is still. -/
def Unlisted (c c' : BlockAwarePrefixCache) (told : List Nat) : Prop :=
  ∀ b ∈ told,
    (∀ r t, c.pool.requestTables.get? r = some t → c'.pool.requestTables.get? r = some t →
      b ∉ t.blockIds) ∧
    ∀ k e, c.prefixIndex.get? k = some e → c'.prefixIndex.get? k = some e → b ∉ e.blockIds

/-- An entry whose last block is told goes with it. -/
theorem unlisted_of (h : Sound P [] c) (hf : Follows c c' told)
    (htab : ∀ b ∈ told, (∃ k, Holds c.pool b k) → ∀ r t, c.pool.requestTables.get? r = some t →
      c'.pool.requestTables.get? r = some t → b ∉ t.blockIds)
    (hidx : ∀ b ∈ told, (∃ k, Holds c.pool b k) → ∀ k e l, c.prefixIndex.get? k = some e →
      b ∈ e.blockIds → e.blockIds.getLast? = some l → l = b ∨ l ∈ told) : Unlisted c c' told := by
  refine fun b hb => ⟨fun r t hget hget' hin => ?_, fun k e hget hget' hin => ?_⟩
  · have hheld := (h.tables r t hget fun _ _ => List.not_mem_nil).holds b hin
    exact htab b hb hheld r t hget hget' hin
  · have hheld := (h.entries k e hget fun _ _ => List.not_mem_nil).holds b hin
    obtain ⟨-, l, hlast, -, hrev⟩ := h.entered k e hget
    have hspared := ((hf.index k e hget').2 l hrev).1
    cases hidx b hb hheld k e l hget hin hlast with
    | inl hlb => exact hspared (hlb ▸ hb)
    | inr hl => exact hspared hl

/-- A call that takes only what it may leaves no block it took on a list. -/
theorem Spares.unlisted {call : Call κ} (hs : Spares P c call) (h : Sound P [] c)
    (hf : Follows c c' told) (hgone : ∀ r, Drops call r → c'.pool.requestTables.get? r = none)
    (hlast : ∀ l, Frees c call l → (∃ k, Holds c.pool l k) → l ∈ told)
    (htold : ∀ b ∈ told, (∃ k, Holds c.pool b k) → Frees c call b ∨ MayEvict P c call b) :
    Unlisted c c' told := by
  refine unlisted_of h hf (fun b hb hk r t hget hget' => ?_) fun b hb hk k e l hget hin hend => ?_
  · refine (hs b (htold b hb hk)).1 r t (fun hdrop => ?_) hget
    rw [hgone r hdrop] at hget'
    cases hget'
  · refine ((hs b (htold b hb hk)).2 k e l hget hin hend).imp_right fun hfree => hlast l hfree ?_
    obtain ⟨-, l', hend', hl', -⟩ := h.entered k e hget
    rw [hend] at hend'
    cases hend'
    exact ⟨k, hl'⟩

structure Within (P : Params κ) (c₀ : BlockAwarePrefixCache) (told : List Nat)
    (c : BlockAwarePrefixCache) : Prop where
  follows : Follows c₀ c told
  sound : Sound P told c

namespace Within

theorem refl (h : Sound P [] c) : Within P c [] c := ⟨.refl h.pending, h⟩

theorem step (h : Within P c₀ told c) (hf : Follows c c' told') (hst : Stood P c')
    (htab : ∀ r t, c'.pool.requestTables.get? r = some t → c.pool.requestTables.get? r = some t) :
    Within P c₀ (told ++ told') c' :=
  ⟨h.follows.trans hf, h.sound.step hf hst htab⟩

/-- A call ends with everything linked if the tables it has written are and nothing lists what it
took. -/
theorem finish (h : Within P c₀ told c) (hun : Unlisted c₀ c told)
    (htab : ∀ r t, c.pool.requestTables.get? r = some t →
      c₀.pool.requestTables.get? r = some t ∨ Linked P c.pool none t.blockIds) : Sound P [] c := by
  refine { h.sound with tables := fun r t hget _ => ?_, entries := fun k e hget _ => ?_ }
  · cases htab r t hget with
    | inl hold =>
      exact h.sound.tables r t hget fun b hb hm => (hun b hm).1 r t hold hget hb
    | inr hlinked => exact hlinked
  · exact h.sound.entries k e hget fun b hb hm =>
      (hun b hm).2 k e (h.follows.index k e hget).1 hget hb

end Within

/-- A free takes at most the one reference. -/
theorem freeBlock_refs (m : Manager) (b x : Nat) : (m.pool.blocks x).refCount ≤
    ((m.freeBlock b).2.pool.blocks x).refCount + if x = b then 1 else 0 := by
  have hle : (m.pool.blocks x).refCount ≤ (m.pool.blocks x).refCount + if x = b then 1 else 0 := by
    split <;> omega
  by_cases hb : b ∈ m.pool.allocatedBlocks
  · have he : Ends m (m.pool.freeBlock b).2 (m.freeBlock b).2 := by
      simp only [Manager.freeBlock, hb, if_true]
      exact ends_thenFlush .all (fun s => s.freeBlock b) m
    rw [(ends_pool he).1]
    cases freeBlock_evicts hb with
    | inl hnull =>
      rw [hnull.1]
      exact hle
    | inr hev =>
      obtain ⟨new, hev⟩ := hev
      rw [hev.refs]
      by_cases hxb : x = b
      · simp [decrement, Pool.modify, CacheBlock.setRef, hxb]
      · simp [decrement, Pool.modify, hxb]
  · rw [Manager.freeBlock, if_neg hb]
    exact hle

theorem handleMemoryPressure_tables (m : Manager) (n : Int) :
    (m.handleMemoryPressure n).2.pool.requestTables = m.pool.requestTables := by
  obtain ⟨new, hev⟩ := handleMemoryPressure_evicts m.pool n
  have heq : (m.handleMemoryPressure n).2 =
      ({ m with pool := (m.pool.handleMemoryPressure n).2 } : Manager).flushContentInvalidated := by
    simp only [Manager.handleMemoryPressure, locked_eq]
  rw [heq, (ends_pool (.flushed (m := m) (s := (m.pool.handleMemoryPressure n).2))).2.2.1]
  exact hev.tables

theorem lastKey_mono {s s' : Pool} {p : Option BlockHash} {ids : List Nat} (h : Linked P s p ids)
    (hkept : ∀ b ∈ ids, ∀ k, Holds s b k → Holds s' b k) : lastKey s' p ids = lastKey s p ids := by
  unfold lastKey
  cases hlast : ids.getLast? with
  | none => rfl
  | some b =>
    have hb := List.mem_of_getLast? hlast
    obtain ⟨k, hk⟩ := h.holds b hb
    exact (hkept b hb k hk).2.trans hk.2.symm

/-- Behind a linked table a store goes on with the digest of the last block. -/
theorem tailHash_eq (ideal : IdealDigest P.sha256) (h : Linked P c.pool none t.blockIds) :
    c.tailHash t = lastKey c.pool none t.blockIds := by
  unfold tailHash lastKey
  cases hlast : t.blockIds.getLast? with
  | none => rfl
  | some b =>
    obtain ⟨k, hk⟩ := h.holds b (List.mem_of_getLast? hlast)
    have hdigest := h.lastKey_isParent
    simp only [lastKey, hlast, hk.2] at hdigest
    obtain ⟨x, hx⟩ := hdigest k rfl
    simp only [hk.1, if_true, hk.2]
    rw [Option.filter_some, if_pos]
    simpa [hx] using ideal.ne_nil x

/-- The calls that neither hand out nor take back a block leave the room as it is. -/
theorem room_same {s s' : Pool} (hs : Same s s') : room P s' = room P s := by
  rw [room, room, hs.queue, hs.count]

theorem ends_room {m m' : Manager} {s : Pool} (he : Ends m s m') : room P m'.pool = room P s := by
  cases he with
  | plain => rfl
  | flushed =>
    unfold Manager.flushContentInvalidated
    split <;> rfl

theorem findCachedBlock_room (c : BlockAwarePrefixCache) (ts : List Int) (p : Option BlockHash)
    (salt : Option (List κ)) :
    room P (c.onPaged (fun m => m.findCachedBlock P ts p salt)).2.pool = room P c.pool := by
  rw [pool, onPaged_pagedCache, Manager.findCachedBlock, locked_eq]
  simp only [Pool.findCachedBlock]
  split
  · cases c.pool.cachedBlockHashToBlock.getBlock (P.hash p ts salt) <;> rfl
  · rfl

theorem incrementRef_room (c : BlockAwarePrefixCache) (b : Nat) :
    room P (c.onPaged (fun m => m.incrementRef P b)).2.pool = room P c.pool := by
  rw [pool, onPaged_pagedCache, Manager.incrementRef, locked_eq]
  simp only [Pool.incrementRef]
  split
  · simp only [Pool.addRef]
    split <;> rfl
  · rfl

theorem fillBlock_room (c : BlockAwarePrefixCache) (b : Nat) (ts : List Int) (p : Option BlockHash)
    (salt : Option (List κ)) : room P (c.fillBlock P b ts p salt).pool = room P c.pool := by
  rw [BlockAwarePrefixCache.fillBlock, pool, onPaged_pagedCache]
  simp only [Manager.registerBlockHash, locked_eq, Pool.registerBlockHash]
  split <;> rfl

/-- Where there is room an allocation finds a block, and takes one block's room. -/
theorem allocateBlock_roomy {m : Manager} (h : Standing P m) (hroom : 0 < room P m.pool) :
    (m.allocateBlock P).1 ≠ .ok none := by
  obtain ⟨a, hst⟩ := h.stands
  have hroomy : Roomy P m.pool := by
    rw [Roomy]
    rw [room, hst.refines.numFree, Int.toNat_natCast] at hroom
    rw [hst.refines.numFree]
    omega
  obtain ⟨b, hb⟩ := allocate_roomy hst.refines hst.sound hroomy
  rw [allocateBlock_result, hb]
  simp

theorem claimPopped_room (s : Pool) (b : Nat) : room P (s.claimPopped P b) = room P s := by
  have hmaybe : ∀ s : Pool, room P (s.maybeEvictCachedBlock b) = room P s := by
    intro s
    unfold Pool.maybeEvictCachedBlock
    split
    · rfl
    · split <;> rfl
  unfold Pool.claimPopped
  split
  · exact hmaybe s
  · rfl

theorem allocatePopped_room (s : Pool) : room P s ≤ room P (s.allocatePopped P).2 + 1 := by
  unfold Pool.allocatePopped FreeBlockQueue.FreeKVCacheBlockQueue.popleft
  split
  · exact Nat.le_succ _
  · next hq =>
    split at hq
    · cases hq
    · cases hq
      show _ ≤ room P (Pool.claimPopped P _ _) + 1
      rw [claimPopped_room]
      simp only [room]
      omega
    · cases hq

theorem allocateBlock_room {m : Manager} (h : Standing P m) :
    room P m.pool ≤ room P (m.allocateBlock P).2.pool + 1 := by
  obtain ⟨a, hst⟩ := h.stands
  have he : Ends m (m.pool.allocateBlockInternal P).2 (m.allocateBlock P).2 :=
    ends_thenFlush .all (Pool.allocateBlockInternal P) m
  rw [ends_room he]
  unfold Pool.allocateBlockInternal
  split
  · have hgrown : room P (m.pool.growBlocks P (min 256 (P.maxBlocks -
        m.pool.currentAllocatedCount))).2 = room P m.pool := by
      obtain ⟨bs, hg, -, -, hlen⟩ := growBlocks_refines hst.refines hst.sound
        (min 256 (P.maxBlocks - m.pool.currentAllocatedCount))
      obtain ⟨hmake, hcount⟩ := growBlocks_count (P := P) m.pool
        (min 256 (P.maxBlocks - m.pool.currentAllocatedCount))
      rw [room_eq hg, room_eq hst.refines, hcount, ResourceLedger.Ledger.extend, List.length_append, hlen]
      omega
    dsimp only
    split
    · exact hgrown.ge.trans (Nat.le_succ _)
    · exact hgrown.ge.trans (allocatePopped_room _)
  · exact allocatePopped_room _

/-- A round that goes on takes the room of one block, when there is any. -/
theorem storeRound_room (h : Sound P told c) (tier : StoreTier) (args : KeyArgs κ)
    (existingTokens : Nat) (newTokens : List Int) (i : Nat) (t : BlockTable)
    (hnext : (c.storeRound P tier args existingTokens newTokens i t).outcome = .next)
    (hroom : 0 < room P c.pool) :
    room P c.pool ≤ room P (c.storeRound P tier args existingTokens newTokens i t).cache.pool + 1 := by
  revert hnext
  simp only [BlockAwarePrefixCache.storeRound]
  cases resolveBlockExtraKeys (existingTokens + (i + 1) * P.blockSize) args with
  | error e => simp
  | ok salt =>
    dsimp only
    generalize c.tailHash t = parent
    generalize blockTokens P.blockSize newTokens i = ts
    have hfind := findCachedBlock_room (P := P) c ts parent salt
    have hstood := h.stood.exec (.findCachedBlock ts parent salt) trivial
    cases (c.onPaged (fun m => m.findCachedBlock P ts parent salt)).1.filter
        (fun _ => tier.resident i) with
    | some b =>
      intro _
      dsimp only
      rw [incrementRef_room, hfind]
      exact Nat.le_succ _
    | none =>
      dsimp only
      have hpaged : (c.onPaged (fun m => m.findCachedBlock P ts parent salt)).2.pagedCache =
          (c.pagedCache.findCachedBlock P ts parent salt).2 := onPaged_pagedCache _ _
      generalize (c.onPaged (fun m => m.findCachedBlock P ts parent salt)).2 = d at hfind hpaged
      have hstand : Standing P d.pagedCache := hpaged ▸ hstood
      rw [← hfind] at hroom ⊢
      have hsome := allocateBlock_roomy hstand hroom
      have hleft := allocateBlock_room hstand
      have hobtain : d.obtainBlock P = d.onPaged (fun m => m.allocateBlock P) := by
        unfold BlockAwarePrefixCache.obtainBlock
        split
        · next c' hq =>
          refine absurd ?_ hsome
          rw [show (d.pagedCache.allocateBlock P).1 = (d.onPaged (fun m => m.allocateBlock P)).1 from rfl,
            hq]
        · rfl
      rw [hobtain]
      have hpool : (d.onPaged (fun m => m.allocateBlock P)).2.pool = (d.pagedCache.allocateBlock P).2.pool := by
        rw [pool, onPaged_pagedCache]
      have hleft : room P d.pool ≤ room P (d.pagedCache.allocateBlock P).2.pool + 1 := hleft
      generalize d.onPaged (fun m => m.allocateBlock P) = q at hpool
      obtain ⟨answer, d'⟩ := q
      rcases answer with e | _ | b
      · simp
      · simp
      · dsimp only
        split
        · intro _
          rw [fillBlock_room, hpool]
          exact hleft
        · simp

/-- The state inside a store that found the table `t₀`, has grown it to `t` and goes on behind the
digest `p`. Of the blocks of before it has taken idle ones only, and of them, unless it ran
`short` of room, only those that name a parent. -/
structure Filling (P : Params κ) (short : Prop) (c₀ : BlockAwarePrefixCache) (t₀ : List Nat)
    (p : Option BlockHash) (told : List Nat) (t : BlockTable) (c : BlockAwarePrefixCache) :
    Prop where
  within : Within P c₀ told c
  tables : c.pool.requestTables = c₀.pool.requestTables
  grown : t₀ <+: t.blockIds
  linked : (∀ b ∈ t₀, b ∉ told) → Linked P c.pool none t.blockIds
  tail : (∀ b ∈ t₀, b ∉ told) → p = lastKey c.pool none t.blockIds
  live : ∀ b ∈ t.blockIds.drop t₀.length, (∃ k, Holds c.pool b k) ∧ 0 < (c.pool.blocks b).refCount
  counted : ∀ x k, Holds c₀.pool x k → x ∉ told →
    (c₀.pool.blocks x).refCount ≤ (c.pool.blocks x).refCount
  taken : ∀ x ∈ told, (∃ k, Holds c₀.pool x k) →
    (c₀.pool.blocks x).refCount ≤ 0 ∧ (short ∨ (c₀.pool.blocks x).parentHash ≠ none)

namespace Filling

theorem mem_cases (h : Filling P short c₀ t₀ p told t c) {b : Nat} (hb : b ∈ t.blockIds) :
    b ∈ t₀ ∨ b ∈ t.blockIds.drop t₀.length := by
  rw [← List.take_append_drop t₀.length t.blockIds, List.mem_append,
    ← List.prefix_iff_eq_take.mp h.grown] at hb
  exact hb

theorem tailHash (ideal : IdealDigest P.sha256) (h : Filling P short c₀ t₀ p told t c) :
    Filling P short c₀ t₀ (c.tailHash t) told t c :=
  { h with tail := fun hsafe => tailHash_eq ideal (h.linked hsafe) }

/-- A step that tells of none of the new blocks. -/
theorem advance (h : Filling P short c₀ t₀ p told t c) (hf : Follows c c' told') (hst : Stood P c')
    (htab : c'.pool.requestTables = c.pool.requestTables)
    (hspare : ∀ b ∈ t.blockIds.drop t₀.length, b ∉ told')
    (hrefs : ∀ b ∈ t.blockIds.drop t₀.length,
      (c.pool.blocks b).refCount ≤ (c'.pool.blocks b).refCount)
    (hcounted : ∀ x k, Holds c₀.pool x k → x ∉ told → x ∉ told' →
      (c.pool.blocks x).refCount ≤ (c'.pool.blocks x).refCount)
    (htaken : ∀ x ∈ told', (∃ k, Holds c₀.pool x k) → x ∉ told →
      (c.pool.blocks x).refCount ≤ 0 ∧ (short ∨ (c.pool.blocks x).parentHash ≠ none)) :
    Filling P short c₀ t₀ p (told ++ told') t c' := by
  have hkept : (∀ b ∈ t₀, b ∉ told ++ told') →
      ∀ b ∈ t.blockIds, ∀ k, Holds c.pool b k → Holds c'.pool b k := by
    intro hsafe b hb k hk
    refine hf.tells.kept b ?_ k hk
    cases h.mem_cases hb with
    | inl hin => exact fun hm => hsafe b hin (List.mem_append_right _ hm)
    | inr hnew => exact hspare b hnew
  have hold : (∀ b ∈ t₀, b ∉ told ++ told') → ∀ b ∈ t₀, b ∉ told :=
    fun hsafe b hb hm => hsafe b hb (List.mem_append_left _ hm)
  refine { within := h.within.step hf hst fun r t hget => htab ▸ hget, tables := htab.trans h.tables
           grown := h.grown, linked := fun hsafe => ?_, tail := fun hsafe => ?_, live := ?_
           counted := fun x k hk hx => ?_, taken := fun x hx hk => ?_ }
  · exact (h.linked (hold hsafe)).mono (hkept hsafe)
  · rw [h.tail (hold hsafe), lastKey_mono (h.linked (hold hsafe)) (hkept hsafe)]
  · intro b hb
    obtain ⟨⟨k, hk⟩, hpos⟩ := h.live b hb
    exact ⟨⟨k, hf.tells.kept b (hspare b hb) k hk⟩, Int.lt_of_lt_of_le hpos (hrefs b hb)⟩
  · rw [List.mem_append, not_or] at hx
    exact (h.counted x k hk hx.1).trans (hcounted x k hk hx.1 hx.2)
  · by_cases hin : x ∈ told
    · exact h.taken x hin hk
    · obtain ⟨hidle, hwhy⟩ := htaken x ((List.mem_append.mp hx).resolve_left hin) hk hin
      obtain ⟨k, hk⟩ := hk
      exact ⟨(h.counted x k hk hin).trans hidle,
        hwhy.imp_right (h.within.follows.tells.parents x hin k hk)⟩

/-- A block of before that was not told is where it was. -/
theorem holds (h : Filling P short c₀ t₀ p told t c) {x : Nat} {k : BlockHash}
    (hk : Holds c₀.pool x k) (hx : x ∉ told) : Holds c.pool x k :=
  h.within.follows.tells.kept x hx k hk

/-- Appending a live block that goes on with the chain. -/
theorem snoc {b n : Nat} (h : Filling P short c₀ t₀ p told t c) (hlen : ts.length = P.blockSize)
    (hb : Holds c.pool b (P.hash p ts salt)) (hlive : 0 < (c.pool.blocks b).refCount) :
    Filling P short c₀ t₀ (some (P.hash p ts salt)) told (addBlock t b n) c where
  within := h.within
  tables := h.tables
  grown := h.grown.trans (List.prefix_append _ _)
  linked hsafe := Linked.snoc_iff.mpr ⟨h.linked hsafe, ts, salt, hlen, h.tail hsafe ▸ hb⟩
  tail _ := (lastKey_snoc _ _ _ _).symm ▸ hb.2.symm
  counted := h.counted
  taken := h.taken
  live x hx := by
    rw [show (addBlock t b n).blockIds = t.blockIds ++ [b] from rfl,
      List.drop_append_of_le_length h.grown.length_le, List.mem_append, List.mem_singleton] at hx
    cases hx with
    | inl hx => exact h.live x hx
    | inr hx => exact hx ▸ ⟨⟨_, hb⟩, hlive⟩

/-- A call of the manager. -/
theorem onPaged (h : Filling P short c₀ t₀ p told t c) {α : Type} {f : Manager → α × Manager}
    (ht : Tells c.callback c.pagedCache (f c.pagedCache).2 told') (hst : Standing P (f c.pagedCache).2)
    (htab : (f c.pagedCache).2.pool.requestTables = c.pool.requestTables)
    (hspare : ∀ b ∈ t.blockIds.drop t₀.length, b ∉ told')
    (hrefs : ∀ b ∈ t.blockIds.drop t₀.length,
      (c.pool.blocks b).refCount ≤ ((f c.pagedCache).2.pool.blocks b).refCount)
    (hcounted : ∀ x k, Holds c₀.pool x k → x ∉ told → x ∉ told' →
      (c.pool.blocks x).refCount ≤ ((f c.pagedCache).2.pool.blocks x).refCount)
    (htaken : ∀ x ∈ told', (∃ k, Holds c₀.pool x k) → x ∉ told →
      (c.pool.blocks x).refCount ≤ 0 ∧ (short ∨ (c.pool.blocks x).parentHash ≠ none)) :
    Filling P short c₀ t₀ p (told ++ told') t (c.onPaged f).2 := by
  have hpool : (c.onPaged f).2.pool = (f c.pagedCache).2.pool := by
    rw [pool, onPaged_pagedCache]
  rw [← hpool] at hrefs hcounted htab
  exact h.advance (Follows.onPaged ht) (Stood.onPaged hst) htab hspare hrefs hcounted htaken

/-- One that tells nothing. -/
theorem quiet (h : Filling P short c₀ t₀ p told t c) {α : Type} {f : Manager → α × Manager}
    (ht : Tells c.callback c.pagedCache (f c.pagedCache).2 []) (hst : Standing P (f c.pagedCache).2)
    (htab : (f c.pagedCache).2.pool.requestTables = c.pool.requestTables)
    (hrefs : ∀ x k, Holds c.pool x k →
      (c.pool.blocks x).refCount ≤ ((f c.pagedCache).2.pool.blocks x).refCount) :
    Filling P short c₀ t₀ p told t (c.onPaged f).2 := by
  have hstep := h.onPaged ht hst htab (fun _ _ => List.not_mem_nil)
    (fun b hb => (h.live b hb).1.elim (hrefs b)) (fun x k hk hx _ => hrefs x k (h.holds hk hx))
    fun x hx => absurd hx List.not_mem_nil
  rwa [List.append_nil] at hstep

theorem allocateBlock (h : Filling P short c₀ t₀ p told t c) :
    Filling P short c₀ t₀ p told t (c.onPaged (fun m => m.allocateBlock P)).2 := by
  obtain ⟨ht, hrefs, -⟩ := allocateBlock_tells (n := c.callback) h.within.sound.stood
    h.within.sound.pending
  have he : Ends c.pagedCache (c.pagedCache.pool.allocateBlockInternal P).2
      (c.pagedCache.allocateBlock P).2 := ends_thenFlush .all (Pool.allocateBlockInternal P) _
  refine h.quiet ht (h.within.sound.stood.exec .allocateBlock trivial) ?_ ?_
  · rw [(ends_pool he).2.2.1]
    exact Books.allocateBlockInternal_tables _
  · exact fun x k hk => (hrefs x hk.1).ge

/-- Obtaining a block ends with an allocation, when it yields one. -/
theorem obtainBlock (h : Filling P short c₀ t₀ p told t c)
    (hshort : (c.pagedCache.allocateBlock P).1 = .ok none → short) :
    ∃ told', Filling P short c₀ t₀ p (told ++ told') t (c.obtainBlock P).2 ∧
      ∀ b, (c.obtainBlock P).1 = .ok (some b) → ∃ d, Filling P short c₀ t₀ p (told ++ told') t d ∧
        (d.pagedCache.allocateBlock P).1 = .ok (some b) ∧
        (c.obtainBlock P).2 = (d.onPaged (fun m => m.allocateBlock P)).2 := by
  have h₁ := h.allocateBlock
  unfold BlockAwarePrefixCache.obtainBlock
  cases hq : c.onPaged (fun m => m.allocateBlock P) with
  | mk answer d =>
    have hanswer : (c.pagedCache.allocateBlock P).1 = answer := congrArg Prod.fst hq
    rw [hq] at h₁
    match answer with
    | .error e => exact ⟨[], by rwa [List.append_nil], by simp⟩
    | .ok (some b) =>
      refine ⟨[], by rwa [List.append_nil], fun b' hb' => ⟨c, by rwa [List.append_nil], ?_, ?_⟩⟩
      · rw [hanswer, ← hb']
      · rw [hq]
    | .ok none =>
      dsimp only
      obtain ⟨told', ht, hidle, -, hrefs⟩ := handleMemoryPressure_tells h₁.within.sound.stood
        h₁.within.sound.pending h₁.within.sound.registered 1
      have hspare : ∀ b ∈ t.blockIds.drop t₀.length, b ∉ told' :=
        fun b hb hm => Int.not_lt.mpr (hidle b hm) (h₁.live b hb).2
      have h₂ : Filling P short c₀ t₀ p (told ++ told') t (d.onPaged (fun m => m.handleMemoryPressure 1)).2 :=
        h₁.onPaged ht (h₁.within.sound.stood.exec (.handleMemoryPressure 1) trivial)
          (handleMemoryPressure_tables _ _) hspare (fun b _ => (hrefs b).ge)
          (fun x _ _ _ _ => (hrefs x).ge) fun x hx _ _ => ⟨hidle x hx, .inl (hshort hanswer)⟩
      cases hq' : d.onPaged (fun m => m.handleMemoryPressure 1) with
      | mk enough d' =>
        rw [hq'] at h₂
        cases enough with
        | false => exact ⟨told', h₂, by simp⟩
        | true => exact ⟨told', h₂.allocateBlock, fun b hb => ⟨d', h₂, hb, rfl⟩⟩

/-- A block just allocated gets its digest. -/
theorem fill {b : Nat} (h : Filling P short c₀ t₀ p told t c)
    (hb : (c.pagedCache.allocateBlock P).1 = .ok (some b)) (ts : List Int)
    (parent : Option BlockHash) (salt : Option (List κ)) :
    Filling P short c₀ t₀ p told t
        ((c.onPaged (fun m => m.allocateBlock P)).2.fillBlock P b ts parent salt) ∧
      b ∉ t.blockIds.drop t₀.length ∧ ((∃ k, Holds c₀.pool b k) → b ∈ told) ∧
      Holds ((c.onPaged (fun m => m.allocateBlock P)).2.fillBlock P b ts parent salt).pool b
        (P.hash parent ts salt) ∧
      (((c.onPaged (fun m => m.allocateBlock P)).2.fillBlock P b ts parent salt).pool.blocks
        b).refCount = 1 := by
  have h₁ := h.allocateBlock
  obtain ⟨ht, hrefs, hfresh⟩ := allocateBlock_tells (n := c.callback) h.within.sound.stood
    h.within.sound.pending
  obtain ⟨hout, hin, hone⟩ := hfresh b hb
  have hlist : ∀ k, ¬ (c.onPaged (fun m => m.allocateBlock P)).2.pool.cachedBlockHashToBlock.Registered
      k b := by
    rw [pool, onPaged_pagedCache]
    cases Standing.allocateBlock h.within.sound.stood with
    | inl hnone =>
      rw [hnone] at hb
      cases hb
    | inr hsome =>
      obtain ⟨b', hb', -, hl⟩ := hsome
      rw [hb'] at hb
      cases hb
      exact hl
  have hf₁ : Follows c (c.onPaged (fun m => m.allocateBlock P)).2 [] := Follows.onPaged ht
  have hpool : (c.onPaged (fun m => m.allocateBlock P)).2.pool = (c.pagedCache.allocateBlock P).2.pool := by
    rw [pool, onPaged_pagedCache]
  rw [← hpool] at hin hone hrefs
  have hnew : b ∉ t.blockIds.drop t₀.length := fun hm => by
    obtain ⟨⟨k, hk⟩, -⟩ := h.live b hm
    exact hout hk.1
  have hlost : (∃ k, Holds c₀.pool b k) → b ∈ told := by
    rintro ⟨k, hk⟩
    by_contra hm
    exact hout (h.holds hk hm).1
  generalize (c.onPaged (fun m => m.allocateBlock P)).2 = d
    at h₁ hlist hf₁ hin hone hrefs
  have hstood := h₁.within.sound.stood.fillBlock hin hlist ts parent salt
  have hpending := h₁.within.sound.pending
  have hblocks : ∀ x, ((d.fillBlock P b ts parent salt).pool.blocks x).refCount =
        (d.pool.blocks x).refCount ∧
      ((d.fillBlock P b ts parent salt).pool.blocks x).parentHash = (d.pool.blocks x).parentHash ∧
      ((d.fillBlock P b ts parent salt).pool.blocks x).blockHash =
        if x = b then some (P.hash parent ts salt) else (d.pool.blocks x).blockHash := by
    intro x
    rw [BlockAwarePrefixCache.fillBlock, pool, onPaged_pagedCache]
    simp only [Manager.registerBlockHash, locked_eq, Pool.registerBlockHash]
    by_cases hx : x = b
    · split <;> simp [BlockAwarePrefixCache.edit, Pool.modify, Pool.bump, Pool.insertHash, hx]
    · split <;> simp [BlockAwarePrefixCache.edit, Pool.modify, Pool.bump, Pool.insertHash, hx]
  have hrest : (d.fillBlock P b ts parent salt).pool.allocatedBlocks = d.pool.allocatedBlocks ∧
      (d.fillBlock P b ts parent salt).pool.pendingContentInvalidated =
        d.pool.pendingContentInvalidated ∧
      (d.fillBlock P b ts parent salt).pool.requestTables = d.pool.requestTables := by
    rw [BlockAwarePrefixCache.fillBlock, pool, onPaged_pagedCache]
    simp only [Manager.registerBlockHash, locked_eq, Pool.registerBlockHash]
    split <;> exact ⟨rfl, rfl, rfl⟩
  have hkept : ∀ x, x ∉ ([] : List Nat) → ∀ k, Holds c.pool x k →
      Holds (d.fillBlock P b ts parent salt).pool x k := by
    intro x _ k hk
    have hxb : x ≠ b := fun hxb => hout (hxb ▸ hk.1)
    have hk₁ := hf₁.tells.kept x List.not_mem_nil k hk
    exact ⟨hrest.1 ▸ hk₁.1, by rw [(hblocks x).2.2, if_neg hxb]; exact hk₁.2⟩
  have hquiet : d.fillBlock P b ts parent salt =
      { d with pagedCache := (d.fillBlock P b ts parent salt).pagedCache } := by
    rw [BlockAwarePrefixCache.fillBlock, onPaged_quiet]
    · rfl
    · simp only [Manager.registerBlockHash, locked_eq]
  have hmanager : (d.fillBlock P b ts parent salt).pagedCache.callbacks = d.pagedCache.callbacks ∧
      (d.fillBlock P b ts parent salt).pagedCache.trace = d.pagedCache.trace := by
    rw [BlockAwarePrefixCache.fillBlock, onPaged_pagedCache]
    simp only [Manager.registerBlockHash, locked_eq]
    exact ⟨rfl, rfl⟩
  have hf : Follows c (d.fillBlock P b ts parent salt) [] :=
    hf₁.edited (by rw [hquiet]) (by rw [hquiet]) (by rw [hquiet]) (by rw [hquiet]) hmanager.1
      hmanager.2 (hrest.2.1.trans hpending) hkept fun x hx k hk hpar =>
        hf₁.tells.parents x hx k hk ((hblocks x).2.1 ▸ hpar)
  have hcounts : ∀ x k, Holds c.pool x k → (c.pool.blocks x).refCount ≤
      ((d.fillBlock P b ts parent salt).pool.blocks x).refCount := by
    intro x k hk
    rw [(hblocks x).1, hrefs x hk.1]
  have hstep := h.advance hf hstood
    (hrest.2.2.trans (h₁.tables.trans h.tables.symm)) (fun _ _ => List.not_mem_nil)
    (fun x hx => (h.live x hx).1.elim (hcounts x)) (fun x k hk hx _ => hcounts x k (h.holds hk hx))
    fun x hx => absurd hx List.not_mem_nil
  rw [List.append_nil] at hstep
  exact ⟨hstep, hnew, hlost, ⟨hrest.1 ▸ hin, by rw [(hblocks b).2.2, if_pos rfl]⟩,
    (hblocks b).1.trans hone⟩

theorem findCachedBlock_tables (s : Pool) (ts : List Int) (p : Option BlockHash)
    (salt : Option (List κ)) : (s.findCachedBlock P ts p salt).2.requestTables = s.requestTables := by
  simp only [Pool.findCachedBlock]
  split
  · cases s.cachedBlockHashToBlock.getBlock (P.hash p ts salt) <;> rfl
  · rfl

theorem findCachedBlock (h : Filling P short c₀ t₀ p' told t c) (ts : List Int) (p : Option BlockHash)
    (salt : Option (List κ)) :
    Filling P short c₀ t₀ p' told t (c.onPaged (fun m => m.findCachedBlock P ts p salt)).2 := by
  obtain ⟨hquiet, hrefs⟩ := findCachedBlock_tells (P := P) (n := c.callback)
    h.within.sound.pending ts p salt
  exact h.quiet hquiet (h.within.sound.stood.exec (.findCachedBlock ts p salt) trivial)
    (by rw [Manager.findCachedBlock, locked_eq]; exact findCachedBlock_tables _ ts p salt)
    fun x _ _ => (hrefs x).ge

/-- A block the hash map has under the next digest. -/
theorem share {b : Nat} (h : Filling P short c₀ t₀ p told t c) (hlen : ts.length = P.blockSize)
    (hfound : (c.pagedCache.findCachedBlock P ts p salt).1 = some b) (n : Nat) :
    Filling P short c₀ t₀ (some (P.hash p ts salt)) told (addBlock t b n)
      ((c.onPaged (fun m => m.findCachedBlock P ts p salt)).2.onPaged
        (fun m => m.incrementRef P b)).2 := by
  have h₁ := h.findCachedBlock ts p salt
  have hholds : Holds (c.onPaged (fun m => m.findCachedBlock P ts p salt)).2.pool b
      (P.hash p ts salt) := by
    obtain ⟨a, hst⟩ := h.within.sound.stood.stands
    obtain ⟨hr, hlisted⟩ := findCachedBlock_refines hst.refines ts p salt
    rw [Manager.findCachedBlock, locked_eq] at hfound
    have hunder := foundUnder_of_listed hr hst.sound (hlisted b hfound)
    rw [pool, onPaged_pagedCache, Manager.findCachedBlock, locked_eq]
    exact ⟨hunder.allocated, hunder.hash⟩
  generalize (c.onPaged (fun m => m.findCachedBlock P ts p salt)).2 = d at h₁ hholds
  obtain ⟨hquiet, hrefs⟩ := incrementRef_tells (P := P) (n := d.callback) h₁.within.sound.pending b
  have h₂ : Filling P short c₀ t₀ p told t (d.onPaged (fun m => m.incrementRef P b)).2 :=
    h₁.quiet hquiet (h₁.within.sound.stood.exec (.incrementRef b) trivial) (incrementRef_tables _ b)
      fun x _ _ => hrefs x
  have hpos := ReturnedReferences.refs_nonneg h₁.within.sound.stood hholds.1
  refine h₂.snoc hlen ?_ ?_
  · rw [pool, onPaged_pagedCache]
    exact hquiet.kept b List.not_mem_nil _ hholds
  · rw [pool, onPaged_pagedCache, Manager.incrementRef, locked_eq]
    simp only [Pool.incrementRef]
    rw [if_pos (show b ∈ d.pagedCache.pool.allocatedBlocks from hholds.1),
      ReturnedReferences.addRef_counts, if_pos rfl]
    omega

/-- Giving a new block up that the table does not list. -/
theorem freeBlock {b : Nat} (h : Filling P short c₀ t₀ p told t c)
    (hb : b ∉ t.blockIds.drop t₀.length) (hnew : (∃ k, Holds c₀.pool b k) → b ∈ told) :
    ∃ told', Filling P short c₀ t₀ p (told ++ told') t (c.freeBlock b) := by
  obtain ⟨told', ht, hfree⟩ := freeBlock_tells h.within.sound.stood h.within.sound.pending
    h.within.sound.registered b
  have hne : ∀ x ∈ t.blockIds.drop t₀.length, x ≠ b := fun x hx hxb => hb (hxb ▸ hx)
  have hold : ∀ x, (∃ k, Holds c₀.pool x k) → x ∉ told → x ≠ b :=
    fun x hk hx hxb => hx (hxb ▸ hnew (hxb ▸ hk))
  have hrefs : ∀ x, x ≠ b → (c.pool.blocks x).refCount ≤
      ((c.pagedCache.freeBlock b).2.pool.blocks x).refCount := by
    intro x hxb
    have hle := freeBlock_refs c.pagedCache b x
    rwa [if_neg hxb, Int.add_zero] at hle
  refine ⟨told', h.onPaged ht (h.within.sound.stood.exec (.freeBlock b) trivial)
    (freeBlock_tables _ b) (fun x hx hm => ?_) (fun x hx => hrefs x (hne x hx))
    (fun x k hk hx _ => hrefs x (hold x ⟨k, hk⟩ hx)) fun x hx hk hout => ⟨?_, .inr ?_⟩⟩
  · have hle := hfree.idle x hm
    rw [if_neg (hne x hx)] at hle
    exact Int.not_lt.mpr hle (h.live x hx).2
  · have hle := hfree.idle x hx
    rwa [if_neg (hold x hk hout)] at hle
  · exact (hfree.own x hx).resolve_left (hold x hk hout)

theorem storeRound_requestId (tier : StoreTier) (args : KeyArgs κ) (existingTokens : Nat)
    (newTokens : List Int) (i : Nat) (t : BlockTable) :
    (c.storeRound P tier args existingTokens newTokens i t).table.requestId = t.requestId := by
  simp only [BlockAwarePrefixCache.storeRound]
  split
  · rfl
  · split
    · rfl
    · split
      · rfl
      · rfl
      · split <;> rfl

/-- A round of the store loop, for a full block. -/
theorem storeRound (ideal : IdealDigest P.sha256) (h : Filling P short c₀ t₀ p told t c)
    (hroom : ¬ short → 0 < room P c.pool) (tier : StoreTier) (args : KeyArgs κ)
    (existingTokens : Nat) (newTokens : List Int) (i : Nat)
    (hlen : (blockTokens P.blockSize newTokens i).length = P.blockSize) :
    ∃ p' told', Filling P short c₀ t₀ p' (told ++ told')
      (c.storeRound P tier args existingTokens newTokens i t).table
      (c.storeRound P tier args existingTokens newTokens i t).cache := by
  have hround := h.tailHash ideal
  simp only [BlockAwarePrefixCache.storeRound]
  cases resolveBlockExtraKeys (existingTokens + (i + 1) * P.blockSize) args with
  | error e => exact ⟨p, [], by rwa [List.append_nil]⟩
  | ok salt =>
    dsimp only
    generalize c.tailHash t = parent at hround
    generalize blockTokens P.blockSize newTokens i = ts at hlen
    have hfind := hround.findCachedBlock ts parent salt
    cases hf : (c.onPaged (fun m => m.findCachedBlock P ts parent salt)).1.filter
        (fun _ => tier.resident i) with
    | some b =>
      have hfound := (Option.filter_eq_some_iff.mp hf).1
      exact ⟨_, [], (List.append_nil told).symm ▸ hround.share hlen hfound _⟩
    | none =>
      dsimp only
      have hroomy : (((c.onPaged (fun m => m.findCachedBlock P ts parent salt)).2.pagedCache.allocateBlock
          P).1 = .ok none) → short := by
        intro hnone
        by_contra hno
        have hpos := hroom hno
        rw [← findCachedBlock_room (P := P) c ts parent salt] at hpos
        exact allocateBlock_roomy hfind.within.sound.stood hpos hnone
      obtain ⟨told', hobtain, hfresh⟩ := hfind.obtainBlock hroomy
      generalize (c.onPaged (fun m => m.findCachedBlock P ts parent salt)).2.obtainBlock P = q
        at hobtain hfresh
      obtain ⟨answer, d⟩ := q
      rcases answer with e | _ | b
      · exact ⟨parent, told', hobtain⟩
      · exact ⟨parent, told', hobtain⟩
      · obtain ⟨d', hd', hb, rfl⟩ := hfresh b rfl
        obtain ⟨hfill, hnew, hlost, hholds, hone⟩ := hd'.fill hb ts parent salt
        dsimp only
        split
        · exact ⟨_, told', hfill.snoc hlen hholds (by omega)⟩
        · obtain ⟨told'', hfreed⟩ := hfill.freeBlock hnew hlost
          dsimp only
          refine ⟨parent, told' ++ told'', ?_⟩
          rw [← List.append_assoc]
          exact hfreed

/-- Behind the loop the table is written back. -/
theorem storeLoop (ideal : IdealDigest P.sha256) (h : Filling P short c₀ t₀ p told t c)
    (tier : StoreTier) (args : KeyArgs κ) (existingTokens : Nat) (newTokens : List Int) (n i : Nat)
    (hroom : ¬ short → n ≤ room P c.pool)
    (hfull : (i + n) * P.blockSize ≤ newTokens.length) :
    ∃ p' told' t' c', Filling P short c₀ t₀ p' (told ++ told') t' c' ∧ t'.requestId = t.requestId ∧
      (c.storeLoop P tier args existingTokens newTokens n i t).2 = c'.setTable t' ∧
      ∀ u, (c.storeLoop P tier args existingTokens newTokens n i t).1 = .ok u → u = t' := by
  induction n generalizing i t c p told with
  | zero => exact ⟨p, [], t, c, (List.append_nil told).symm ▸ h, rfl, rfl, fun u hu => by cases hu; rfl⟩
  | succ n ih =>
    have hlen : (blockTokens P.blockSize newTokens i).length = P.blockSize := by
      have hone : (i + 1) * P.blockSize ≤ (i + (n + 1)) * P.blockSize :=
        Nat.mul_le_mul_right _ (by omega)
      rw [Nat.succ_mul] at hone
      simp only [blockTokens, List.length_take, List.length_drop]
      omega
    obtain ⟨p', told', hround⟩ := h.storeRound ideal (fun hno => Nat.lt_of_lt_of_le n.succ_pos
      (hroom hno)) tier args existingTokens newTokens i hlen
    have hleft := storeRound_room h.within.sound tier args existingTokens newTokens i t
    have hid := storeRound_requestId (P := P) (c := c) tier args existingTokens newTokens i t
    simp only [BlockAwarePrefixCache.storeLoop]
    generalize c.storeRound P tier args existingTokens newTokens i t = r at hround hid hleft
    obtain ⟨outcome, table, cache⟩ := r
    cases outcome with
    | next =>
      obtain ⟨p'', told'', t', c', hfill, hid', hstate, hanswer⟩ := ih hround (i + 1)
        (fun hno => by
          have hn := hroom hno
          have hone : room P c.pool ≤ room P cache.pool + 1 := hleft rfl (by omega)
          show n ≤ room P cache.pool
          omega)
        (by rwa [Nat.add_right_comm])
      exact ⟨p'', told' ++ told'', t', c', List.append_assoc told told' told'' ▸ hfill,
        hid'.trans hid, hstate, hanswer⟩
    | stop => exact ⟨p', told', table, cache, hround, hid, rfl, fun u hu => by cases hu; rfl⟩
    | raised e => exact ⟨p', told', table, cache, hround, hid, rfl, by rintro _ ⟨⟩⟩

end Filling

/-- From `c` to `c'` blocks of `ids` were entered in the index, each under its own digest. -/
structure Indexed (ids : List Nat) (c c' : BlockAwarePrefixCache) : Prop where
  pool : Same c.pool c'.pool
  tables : c'.pool.requestTables = c.pool.requestTables
  callbacks : c'.pagedCache.callbacks = c.pagedCache.callbacks
  trace : c'.pagedCache.trace = c.pagedCache.trace
  callback : c'.callback = c.callback
  pins : c'.pinnedBlocks = c.pinnedBlocks
  reverse : ∀ b k, k ∈ (c.blockIdToHashes.get? b).getD [] → k ∈ (c'.blockIdToHashes.get? b).getD []
  index : ∀ k e, c'.prefixIndex.get? k = some e → c.prefixIndex.get? k = some e ∨
    ∃ i b, e.blockIds = ids.take (i + 1) ∧ e.numBlocks = i + 1 ∧ ids[i]? = some b ∧
      Holds c'.pool b k ∧ k ∈ (c'.blockIdToHashes.get? b).getD []

namespace Indexed

variable {ids : List Nat}

theorem refl (ids : List Nat) (c : BlockAwarePrefixCache) : Indexed ids c c :=
  ⟨.refl _, rfl, rfl, rfl, rfl, rfl, fun _ _ h => h, fun _ _ h => .inl h⟩

theorem trans (h : Indexed ids c c') (h' : Indexed ids c' c'') : Indexed ids c c'' := by
  refine ⟨h.pool.trans h'.pool, h'.tables.trans h.tables, h'.callbacks.trans h.callbacks,
    h'.trace.trans h.trace, h'.callback.trans h.callback, h'.pins.trans h.pins,
    fun b k hk => h'.reverse b k (h.reverse b k hk), fun k e hget => ?_⟩
  cases h'.index k e hget with
  | inr hnew => exact .inr hnew
  | inl hmid =>
    cases h.index k e hmid with
    | inl hold => exact .inl hold
    | inr hnew =>
      obtain ⟨i, b, hids, hcount, hi, hb, hrev⟩ := hnew
      exact .inr ⟨i, b, hids, hcount, hi, Holds.same h'.pool hb, h'.reverse b k hrev⟩

/-- One block. -/
theorem one {b i len : Nat} {k : BlockHash} (hb : Holds c.pool b k) (hi : ids[i]? = some b) :
    Indexed ids c ((c.edit (fun s => s.modify b (fun d => { d with blockHash := some k }))).indexOne
      k b ⟨len, ids.take (i + 1), i + 1⟩) := by
  have hsame : Same c.pool (c.pool.modify b (fun d => { d with blockHash := some k })) :=
    Same.modify _ b _ rfl hb.2.symm rfl rfl
  have hrev : ∀ x k', k' ∈ (c.blockIdToHashes.get? x).getD [] →
      k' ∈ ((c.blockIdToHashes.set b (if k ∈ (c.blockIdToHashes.get? b).getD [] then
        (c.blockIdToHashes.get? b).getD [] else (c.blockIdToHashes.get? b).getD [] ++ [k])).get?
          x).getD [] := by
    intro x k' hk'
    rw [Dict.get?_set]
    split
    · next hx =>
      subst hx
      rw [Option.getD_some]
      split
      · exact hk'
      · exact List.mem_append_left _ hk'
    · exact hk'
  refine ⟨hsame, rfl, rfl, rfl, rfl, rfl, hrev, fun k' e hget => ?_⟩
  rw [show ((c.edit (fun s => s.modify b (fun d => { d with blockHash := some k }))).indexOne
    k b ⟨len, ids.take (i + 1), i + 1⟩).prefixIndex =
      c.prefixIndex.set k ⟨len, ids.take (i + 1), i + 1⟩ from rfl, Dict.get?_set] at hget
  split at hget
  · next hk =>
    cases hget
    subst hk
    refine .inr ⟨i, b, rfl, rfl, hi, Holds.same hsame hb, ?_⟩
    show k' ∈ ((c.blockIdToHashes.set b _).get? b).getD []
    rw [Dict.get?_set_self, Option.getD_some]
    split
    · next hmem => exact hmem
    · exact List.mem_append_right _ (List.mem_singleton_self _)
  · exact .inl hget

theorem updateLoop (tokens : List Int) (salt : Option (List κ)) {bs : List Nat} {i : Nat}
    (parent : BlockHash) (len : Nat) (hbs : bs = ids.drop i)
    (hheld : ∀ b ∈ bs, ∃ k, Holds c.pool b k) :
    Indexed ids c (updateLoop P tokens ids salt bs i parent len c) := by
  induction bs generalizing i parent len c with
  | nil => exact .refl ids c
  | cons b bs ih =>
    simp only [BlockAwarePrefixCache.updateLoop]
    split
    · exact .refl ids c
    · obtain ⟨k, hk⟩ := hheld b List.mem_cons_self
      have hi : ids[i]? = some b := by
        have hhead : (ids.drop i)[0]? = some b := by rw [← hbs]; rfl
        rwa [List.getElem?_drop, Nat.add_zero] at hhead
      have hown : indexHash P c.pool b parent (blockTokens P.blockSize tokens i) salt = k := by
        simp only [indexHash, hk.1, if_true, hk.2]
      have hone := @one c ids b i (len + (blockTokens P.blockSize tokens i).length) k hk hi
      rw [hown, if_pos hk.1]
      refine hone.trans (ih _ _ ?_ fun x hx => ?_)
      · rw [← List.drop_drop, ← hbs, List.drop_one, List.tail_cons]
      · obtain ⟨k', hk'⟩ := hheld x (List.mem_cons_of_mem _ hx)
        exact ⟨k', Holds.same hone.pool hk'⟩

end Indexed

theorem updateLoop_tables (tokens : List Int) (ids : List Nat) (salt : Option (List κ)) (bs : List Nat)
    (i : Nat) (parent : BlockHash) (len : Nat) :
    (updateLoop P tokens ids salt bs i parent len c).pool.requestTables = c.pool.requestTables := by
  induction bs generalizing i parent len c with
  | nil => rfl
  | cons b bs ih =>
    simp only [BlockAwarePrefixCache.updateLoop]
    split
    · rfl
    · refine (ih _ _ _).trans ?_
      split <;> rfl

theorem sound_own (h : Sound P told c) (T : Dict String TableRef) :
    Sound P told { c with requestTables := T } :=
  ⟨h.stood, h.pending, h.registered, h.unpinned, h.keyed, h.tables,
    fun k e hget => ⟨(h.entered k e hget).count, (h.entered k e hget).last⟩, h.entries⟩

theorem createBlockTable_eq (c : BlockAwarePrefixCache) (r : String) : ∃ T,
    c.createBlockTable r = { c.setTable { requestId := r } with requestTables := T } := by
  have hcreate : ∀ d : BlockAwarePrefixCache, d.pagedCache = c.pagedCache →
      (d.onPaged (fun m => ((), m.createBlockTable r))).2 =
        { d with pagedCache := (c.setTable { requestId := r }).pagedCache } := by
    intro d hd
    rw [onPaged_quiet]
    · simp only [Manager.createBlockTable, locked_eq, hd]
      rfl
    · simp only [Manager.createBlockTable, locked_eq]
  unfold createBlockTable keepTable
  split
  · split
    · exact ⟨_, hcreate _ rfl⟩
    · exact ⟨_, hcreate _ rfl⟩
  · exact ⟨_, hcreate _ rfl⟩

theorem createBlockTable_sound (h : Sound P told c) (r : String) :
    Sound P told (c.createBlockTable r) := by
  obtain ⟨T, hT⟩ := createBlockTable_eq c r
  rw [hT]
  exact sound_own (h.setTable { requestId := r } fun _ => trivial) T

/-- Opening a table changes the tables only, and adds but an empty one. -/
structure Opened (c c' : BlockAwarePrefixCache) : Prop where
  pool : Same c.pool c'.pool
  index : c'.prefixIndex = c.prefixIndex
  tables : ∀ r t, c'.pool.requestTables.get? r = some t →
    c.pool.requestTables.get? r = some t ∨ t.blockIds = []

theorem createBlockTable_opened (c : BlockAwarePrefixCache) (r : String) :
    Opened c (c.createBlockTable r) := by
  obtain ⟨T, hT⟩ := createBlockTable_eq c r
  rw [hT]
  refine ⟨Same.setTable c.pool { requestId := r }, rfl, fun r' t hget => ?_⟩
  rw [show ({ c.setTable { requestId := r } with requestTables := T } :
    BlockAwarePrefixCache).pool.requestTables = c.pool.requestTables.set r { requestId := r } from rfl,
    Dict.get?_set] at hget
  split at hget
  · cases hget
    exact .inr rfl
  · exact .inl hget

/-- A store starts from the table of its request. -/
theorem openTable_sound (h : Sound P [] c) (r : String) :
    Sound P [] (c.openTable r).2 ∧ Opened c (c.openTable r).2 ∧
      (c.openTable r).2.pool.requestTables.get? r = some (c.openTable r).1 := by
  have hnew : (c.createBlockTable r).pool.requestTables.get? r = some { requestId := r } := by
    obtain ⟨T, hT⟩ := createBlockTable_eq c r
    rw [hT]
    exact Dict.get?_set_self _ r _
  unfold openTable
  split
  · exact ⟨createBlockTable_sound h r, createBlockTable_opened c r, hnew⟩
  · next t ht =>
    split
    · exact ⟨createBlockTable_sound h r, createBlockTable_opened c r, hnew⟩
    · exact ⟨h, ⟨.refl _, rfl, fun _ _ hget => .inl hget⟩, ht⟩

namespace Filling

theorem start (h : Sound P [] c) {r : String} (ht : c.pool.requestTables.get? r = some t) :
    Filling P short c t.blockIds (lastKey c.pool none t.blockIds) [] t c where
  within := .refl h
  tables := rfl
  grown := List.prefix_refl _
  linked hsafe := h.tables r t ht hsafe
  tail _ := rfl
  live b hb := by simp at hb
  counted x _ _ _ := Int.le_refl _
  taken x hx := absurd hx List.not_mem_nil

/-- The state behind the loop, its table written back and entered in the index. -/
theorem finish (h : Filling P short c₀ t₀ p told t c)
    (hstart : ∃ u, c₀.pool.requestTables.get? t.requestId = some u ∧ u.blockIds = t₀)
    (htables : c'.pool.requestTables = (c.setTable t).pool.requestTables)
    (hindexed : (∀ b ∈ t.blockIds, ∃ k, Holds c.pool b k) → Indexed t.blockIds (c.setTable t) c')
    (hst : Stood P c') (hun : Unlisted c₀ c told) : Sound P [] c' := by
  have hset : (c.setTable t).pool.requestTables = c₀.pool.requestTables.set t.requestId t := by
    rw [← h.tables]
    rfl
  have hsafe : ∀ b ∈ t₀, b ∉ told := by
    intro b hb hm
    obtain ⟨u, hu, rfl⟩ := hstart
    exact (hun b hm).1 t.requestId u hu (h.tables ▸ hu) hb
  have hlinked := h.linked hsafe
  have hidx := hindexed hlinked.holds
  have hsound : Sound P told (c.setTable t) := h.within.sound.setTable t fun _ => hlinked
  have hmono : ∀ {p : Option BlockHash} {bs : List Nat}, Linked P (c.setTable t).pool p bs →
      Linked P c'.pool p bs := fun hl => hl.mono fun _ _ _ hk => Holds.same hidx.pool hk
  have hids : Linked P (c.setTable t).pool none t.blockIds := hlinked.mono fun _ _ _ hk => hk
  refine { stood := hst, pending := hidx.pool.pending.trans hsound.pending, registered := ?_
           unpinned := ?_, keyed := ?_, tables := ?_, entered := ?_, entries := ?_ }
  · rw [hidx.callback, hidx.callbacks]
    exact hsound.registered
  · rw [hidx.pins]
    exact hsound.unpinned
  · rw [htables]
    exact hsound.keyed
  · intro r u hu _
    rw [htables] at hu
    apply hmono
    by_cases hr : r = t.requestId
    · rw [hr, hset, Dict.get?_set_self] at hu
      exact Option.some.inj hu ▸ hids
    · refine hsound.tables r u hu fun b hb hm => ?_
      have hold : c₀.pool.requestTables.get? r = some u := by
        rwa [hset, Dict.get?_set, if_neg hr] at hu
      exact (hun b hm).1 r u hold (h.tables ▸ hold) hb
  · intro k e he
    cases hidx.index k e he with
    | inl hold =>
      obtain ⟨hcount, b, hlast, hb, hrev⟩ := hsound.entered k e hold
      exact ⟨hcount, b, hlast, Holds.same hidx.pool hb, hidx.reverse b k hrev⟩
    | inr hnew =>
      obtain ⟨i, b, hbs, hcount, hi, hb, hrev⟩ := hnew
      have hlt := (List.getElem?_eq_some_iff.mp hi).1
      refine ⟨?_, b, ?_, hb, hrev⟩
      · rw [hcount, hbs, List.length_take]
        omega
      · rw [hbs, List.getLast?_eq_getElem?, List.length_take, Nat.min_eq_left hlt,
          Nat.succ_sub_one, List.getElem?_take_of_lt (Nat.lt_succ_self i)]
        exact hi
  · intro k e he _
    apply hmono
    cases hidx.index k e he with
    | inr hnew =>
      obtain ⟨i, b, hbs, -⟩ := hnew
      exact hbs ▸ hids.take (i + 1)
    | inl hold =>
      refine hsound.entries k e hold fun b hb hm => ?_
      exact (hun b hm).2 k e (h.within.follows.index k e hold).1 hold hb

end Filling

/-- A store takes no more of the blocks of before than it may. -/
theorem Filling.unlisted {r : String} {tokens : List Int} {tier : StoreTier} {args : KeyArgs κ}
    (hs : Spares P c (.storeCache tier r tokens args)) (h₀ : Sound P [] c₀) (ho : Opened c c₀)
    (hfill : Filling P (room P c.pool < newBlocks P c r tokens) c₀ t₀ p told t c') :
    Unlisted c₀ c' told := by
  have hidle : ∀ b ∈ told, (∃ k, Holds c₀.pool b k) →
      MayEvict P c (.storeCache tier r tokens args) b := by
    rintro b hb ⟨k, hk⟩
    obtain ⟨hrefs, hwhy⟩ := hfill.taken b hb ⟨k, hk⟩
    have hidle : Idle c.pool b := idle_of_holds ⟨ho.pool.allocated ▸ hk.1,
      (ho.pool.key b).symm.trans hk.2⟩ (ho.pool.refs b ▸ hrefs)
    rw [ho.pool.parent b] at hwhy
    exact hwhy.imp (fun hshort => ⟨hidle, hshort⟩) fun hparent => ⟨hidle, hparent⟩
  refine unlisted_of h₀ hfill.within.follows (fun b hb hk r' t hget _ => ?_)
    fun b hb hk k e l hget hin hend => ?_
  · cases ho.tables r' t hget with
    | inl hold => exact (hs b (.inr (hidle b hb hk))).1 r' t (fun hdrop => hdrop) hold
    | inr hnil => simp [hnil]
  · exact ((hs b (.inr (hidle b hb hk))).2 k e l (ho.index ▸ hget) hin hend).imp_right False.elim

/-- A store that spares what is listed leaves everything linked. -/
theorem storeCache_sound (ideal : IdealDigest P.sha256) (h : Sound P [] c) (tier : StoreTier)
    (r : String) (tokens : List Int) (args : KeyArgs κ)
    (hs : Spares P c (.storeCache tier r tokens args)) :
    Sound P [] (c.storeCache P tier r tokens args).2 := by
  have hst := h.stood.storeCache tier r tokens args
  obtain ⟨ho, hopen, hget⟩ := openTable_sound h r
  have hnew : newBlocks P c r tokens = (tokens.drop (c.openTable r).1.numTokens).length / P.blockSize :=
    rfl
  revert hst
  simp only [BlockAwarePrefixCache.storeCache]
  split
  · exact fun _ => h
  · have hun {p t₀ told t d} (hfill : Filling P (room P c.pool < newBlocks P c r tokens)
        (c.openTable r).2 t₀ p told t d) : Unlisted (c.openTable r).2 d told :=
      hfill.unlisted hs ho hopen
    rw [hnew, ← room_same hopen.pool] at hun
    generalize c.openTable r = o at ho hget hun
    split
    · exact fun _ => ho
    · split
      · exact fun _ => ho
      · have hrid : o.1.requestId = r := ho.keyed r o.1 hget
        have hfirst : Filling P (room P o.2.pool < (tokens.drop o.1.numTokens).length / P.blockSize)
            o.2 o.1.blockIds (lastKey o.2.pool none o.1.blockIds) [] o.1 o.2 := .start ho hget
        obtain ⟨p, told, t, d, hfill, hid, hstate, hanswer⟩ := hfirst.storeLoop ideal tier args
          o.1.numTokens (tokens.drop o.1.numTokens)
          ((tokens.drop o.1.numTokens).length / P.blockSize) 0 Nat.le_of_not_lt
          (by rw [Nat.zero_add]; exact Nat.div_mul_le_self _ _)
        have hstart : ∃ u, o.2.pool.requestTables.get? t.requestId = some u ∧
            u.blockIds = o.1.blockIds := ⟨o.1, by rw [hid, hrid, hget], rfl⟩
        generalize o.2.storeLoop P tier args o.1.numTokens (tokens.drop o.1.numTokens)
          ((tokens.drop o.1.numTokens).length / P.blockSize) 0 o.1 = q at hstate hanswer
        obtain ⟨answer, d'⟩ := q
        obtain rfl : d' = d.setTable t := hstate
        cases answer with
        | error e => exact fun hst => hfill.finish hstart rfl (fun _ => .refl _ _) hst (hun hfill)
        | ok u =>
          obtain rfl : u = t := hanswer u rfl
          intro hst
          have htables := updateLoop_tables (P := P) (c := d.setTable u) tokens u.blockIds
            args.extraKeys u.blockIds 0 [] 0
          refine sound_own (hfill.finish hstart htables (fun hheld => ?_) hst (hun hfill)) _
          exact Indexed.updateLoop tokens args.extraKeys [] 0 rfl fun b hb =>
            (hheld b hb).imp fun k hk => hk

/-- A call that writes no table. -/
theorem called (h : Sound P [] c) (hf : Follows c c' told) (hst : Stood P c')
    (htab : ∀ r t, c'.pool.requestTables.get? r = some t → c.pool.requestTables.get? r = some t)
    (hun : Unlisted c c' told) : Sound P [] c' :=
  ((Within.refl h).step hf hst htab).finish hun fun r t hget => .inl (htab r t hget)

theorem deleteBlockTable_tables (m : Manager) (r : String) :
    (m.deleteBlockTable r).pool.requestTables = m.pool.requestTables.erase r := by
  have hall : ∀ (bs : List Nat) (m : Manager),
      (bs.foldl (fun m b => (m.freeBlock b).2) m).pool.requestTables = m.pool.requestTables := by
    intro bs
    induction bs with
    | nil => exact fun m => rfl
    | cons b bs ih => exact fun m => (ih _).trans (freeBlock_tables m b)
  cases ht : m.pool.requestTables.get? r with
  | none =>
    simp only [Manager.deleteBlockTable, Manager.withLocks, Manager.onPool, Pool.detachRequestTable,
      ht]
  | some t =>
    simp only [Manager.deleteBlockTable, Manager.withLocks, Manager.onPool, Pool.detachRequestTable,
      ht, hall]

theorem get?_of_erase {T : Dict String BlockTable} {r r' : String} {t : BlockTable}
    (h : (T.erase r).get? r' = some t) : T.get? r' = some t := by
  rw [Dict.get?_erase] at h
  split at h
  · cases h
  · exact h

theorem releaseCache_sound (h : Sound P [] c) (r : String) (hs : Spares P c (.releaseCache r)) :
    Sound P [] (c.releaseCache r) := by
  have hst := h.stood.releaseCache r
  revert hst
  unfold releaseCache
  split
  · exact fun _ => h
  · next hentry =>
    intro hst
    have hin : c.requestTables.get? r ≠ none := by
      rw [hentry]
      exact Option.some_ne_none _
    obtain ⟨told, htold, hfrees⟩ := deleteBlockTable_tells h.stood h.pending h.registered r
    have hcall : Follows { c with requestTables := c.requestTables.erase r }
        (onPaged (fun m => ((), m.deleteBlockTable r))
          { c with requestTables := c.requestTables.erase r }).2 told := Follows.onPaged htold
    have hf : Follows c (onPaged (fun m => ((), m.deleteBlockTable r))
        { c with requestTables := c.requestTables.erase r }).2 told :=
      ⟨hcall.callback, hcall.pins, hcall.tells, hcall.index⟩
    have htables : (onPaged (fun m => ((), m.deleteBlockTable r))
        { c with requestTables := c.requestTables.erase r }).2.pool.requestTables =
          c.pool.requestTables.erase r := by
      rw [pool, onPaged_pagedCache, deleteBlockTable_tables]
    refine called h hf hst (fun r' t hget => get?_of_erase (htables ▸ hget))
      (hs.unlisted h hf (fun r' hdrop => ?_) (fun l hl hk => ?_) fun b hb hk => ?_)
    · rw [htables, show r' = r from hdrop]
      exact Dict.get?_erase_self _ _
    · obtain ⟨-, hne, hlisted, hle⟩ := hl
      exact hfrees.last l hlisted hne hk hle
    · have hle := hfrees.idle b hb hk
      by_cases hlisted : b ∈ tableIds c.pool r
      · exact .inl ⟨hin, fun hzero => hfrees.root (hzero ▸ hb), hlisted, hle⟩
      · rw [List.count_eq_zero_of_not_mem hlisted] at hle
        obtain ⟨k, hk⟩ := hk
        exact .inr ⟨hin, idle_of_holds hk hle, (hfrees.own b hb ⟨k, hk⟩).resolve_left hlisted⟩

theorem clearRequestEntryNoFree_sound (h : Sound P [] c) (r : String) :
    Sound P [] (c.clearRequestEntryNoFree r) := by
  have hst := h.stood.clearRequestEntryNoFree r
  revert hst
  unfold clearRequestEntryNoFree
  split
  · exact fun _ => h
  · intro hst
    have htells : Tells c.callback c.pagedCache (c.pagedCache.detachRequestTable r).2 [] :=
      locked_tells .tableOnly h.pending (fun _ _ hk => hk) fun _ => rfl
    refine (sound_own h (c.requestTables.erase r)).step (Follows.onPaged htells) hst
      fun r' t hget => ?_
    rw [pool, onPaged_pagedCache, Manager.detachRequestTable, locked_eq] at hget
    exact get?_of_erase hget

theorem retire_sound (h : Sound P [] c) (r : String) : Sound P [] (c.retire r) := by
  apply clearRequestEntryNoFree_sound
  split
  · exact h
  · next t _ =>
    refine h.step (Follows.onPaged (releaseForEviction_tells h.pending t.blockIds))
      (h.stood.paged (.releaseForEviction t.blockIds) rfl trivial) fun r' u hget => ?_
    rwa [pool, onPaged_pagedCache, Manager.releaseForEviction, locked_eq,
      releaseForEviction_tables] at hget

def Takes : Op κ → Prop
  | .handleMemoryPressure _ => True
  | .evictLruBlocks _ => True
  | .allocateBlock => True
  | .freeBlock _ => True
  | _ => False

theorem paged_tells (h : Sound P [] c) {op : Op κ} (hop : Takes op) :
    ∃ told, Tells c.callback c.pagedCache (exec P c.pagedCache op) told ∧
      (exec P c.pagedCache op).pool.requestTables = c.pool.requestTables ∧
      (∀ l, Frees c (.paged op) l → (∃ k, Holds c.pool l k) → l ∈ told) ∧
      ∀ b ∈ told, (∃ k, Holds c.pool b k) →
        Frees c (.paged op) b ∨ MayEvict P c (.paged op) b := by
  have hst := h.stood
  have hp := h.pending
  have hn := h.registered
  cases op with
  | handleMemoryPressure n =>
    obtain ⟨told, ht, hidle, hwhy, -⟩ := handleMemoryPressure_tells hst hp hn n
    refine ⟨told, ht, handleMemoryPressure_tables _ n, fun _ hl => hl.elim, fun b hb hx => .inr ?_⟩
    obtain ⟨k, hk⟩ := hx
    exact (hwhy b hb hk.1).imp_right fun hparent => ⟨idle_of_holds hk (hidle b hb), hparent⟩
  | evictLruBlocks n =>
    obtain ⟨told, ht, hwhy⟩ := evictLruBlocks_tells hst hp hn n
    obtain ⟨new, hev⟩ := evictLruLoop_evicts n c.pool.queueIds 0 c.pool
    refine ⟨told, ht, ?_, fun _ hl => hl.elim, fun b hb hx => .inr ?_⟩
    · simp only [exec, Manager.evictLruBlocks, locked_eq]
      rw [(ends_pool (.flushed (m := c.pagedCache)
        (s := (c.pagedCache.pool.evictLruBlocksLocked n).2))).2.2.1]
      exact hev.tables
    · obtain ⟨k, hk⟩ := hx
      obtain ⟨hidle, hparent⟩ := hwhy b hb hk.1
      exact ⟨idle_of_holds hk hidle, hparent⟩
  | allocateBlock =>
    have he : Ends c.pagedCache (c.pagedCache.pool.allocateBlockInternal P).2
        (c.pagedCache.allocateBlock P).2 :=
      ends_thenFlush .all (Pool.allocateBlockInternal P) c.pagedCache
    exact ⟨[], (allocateBlock_tells hst hp).1,
      (ends_pool he).2.2.1.trans (Books.allocateBlockInternal_tables _), fun _ hl => hl.elim, by simp⟩
  | freeBlock x =>
    obtain ⟨told, ht, hfree⟩ := freeBlock_tells hst hp hn x
    refine ⟨told, ht, freeBlock_tables _ x, ?_, fun b hb hx => ?_⟩
    · rintro l ⟨rfl, hne, hle⟩ hk
      exact hfree.last hne hk hle
    · obtain ⟨k, hk⟩ := hx
      have hle := hfree.idle b hb
      by_cases hbx : b = x
      · rw [if_pos hbx] at hle
        exact .inl ⟨hbx, fun hzero => hfree.root (hzero ▸ hb), hle⟩
      · rw [if_neg hbx] at hle
        exact .inr ⟨idle_of_holds hk hle, (hfree.own b hb).resolve_left hbx⟩
  | _ => exact hop.elim

theorem paged_sound (h : Sound P [] c) {op : Op κ} (hop : Takes op)
    (hs : Spares P c (.paged op)) : Sound P [] (step P c (.paged op)) := by
  obtain ⟨told, ht, htab, hlast, htold⟩ := paged_tells h hop
  have hwf : op.WellFormed c.pagedCache := by
    cases op <;> trivial
  have hstep : step P c (.paged op) = (c.onPaged (fun m => ((), exec P m op))).2 := by
    have hlost : c.lostTables op = [] := by cases op <;> first | rfl | exact hop.elim
    rw [step, hlost]
    rfl
  rw [hstep]
  have hf : Follows c (c.onPaged (fun m => ((), exec P m op))).2 told := Follows.onPaged ht
  refine called h hf (h.stood.paged op rfl hwf) (fun r t hget => ?_)
    (hs.unlisted h hf (fun _ hdrop => hdrop.elim) hlast htold)
  rwa [pool, onPaged_pagedCache, htab] at hget

end FusionMlx.IntactCalls
