import FusionMlx.Cache.PagedCacheManager

/-!
# The block-aware prefix cache

`BlockAwarePrefixCache` keeps, beside the paged manager, an index from chain
hashes to the block lists of whole prefixes, the table entries of requests and
the pinned blocks. Every call into the manager goes through `onPaged`, which
lets the cache's own callback see what the manager flushed. The SSD tier and
the extraction of tensor slices are oracles of a call.
-/
namespace FusionMlx.PrefixCache

open BlockHashing BlockPool OrderedDict PagedCacheManager

def addBlock (t : BlockTable) (b numTokens : Nat) : BlockTable :=
  { t with blockIds := t.blockIds ++ [b], numTokens := t.numTokens + numTokens }

structure IndexEntry where
  prefixLen : Nat
  blockIds : List Nat
  numBlocks : Nat

/-- `callback` is the place of `_on_block_freed` among the manager's callbacks. An entry of
`requestTables` names the tracked table of its request or a table no longer tracked. -/
structure BlockAwarePrefixCache where
  pagedCache : Manager
  callback : Nat
  prefixIndex : Dict BlockHash IndexEntry
  blockIdToHashes : Dict Nat (List BlockHash)
  requestTables : Dict String TableRef
  pinnedBlocks : Dict Nat Nat
  lastPinExpiryCheck : Nat

structure Clocks where
  monotonic : Nat := 0
  time : Nat := 0

/-- What the SSD tier and the tensor extraction answer in round `i` of one store: whether the
data of a deduplicated block is resident, and whether a new block gets persisted. Without an
SSD manager both hold. -/
structure StoreTier where
  resident : Nat → Bool := fun _ => true
  persists : Nat → Bool := fun _ => true

def pinExpiryCheckInterval : Nat := 5

namespace BlockAwarePrefixCache

variable {κ : Type}

def onBlockFreed (c : BlockAwarePrefixCache) (b : Nat) : BlockAwarePrefixCache :=
  match c.blockIdToHashes.get? b with
  | none => c
  | some hashes =>
    { c with
      blockIdToHashes := c.blockIdToHashes.erase b
      prefixIndex := hashes.foldl Dict.erase c.prefixIndex }

def toldTo (n : Nat) (trace : List Delivery) : List Nat :=
  (trace.filter (fun d => d.callback = n)).map Delivery.blockId

def onPaged {α : Type} (op : Manager → α × Manager) (c : BlockAwarePrefixCache) :
    α × BlockAwarePrefixCache :=
  let r := op c.pagedCache
  (r.1, (toldTo c.callback (r.2.trace.drop c.pagedCache.trace.length)).foldl onBlockFreed
    { c with pagedCache := r.2 })

def edit (c : BlockAwarePrefixCache) (f : Pool → Pool) : BlockAwarePrefixCache :=
  { c with pagedCache := { c.pagedCache with pool := f c.pagedCache.pool } }

abbrev pool (c : BlockAwarePrefixCache) : Pool := c.pagedCache.pool

def init (m : Manager) : BlockAwarePrefixCache :=
  { pagedCache := m.registerBlockFreedCallback
    callback := m.callbacks
    prefixIndex := Dict.empty
    blockIdToHashes := Dict.empty
    requestTables := Dict.empty
    pinnedBlocks := Dict.empty
    lastPinExpiryCheck := 0 }

def freeBlock (c : BlockAwarePrefixCache) (b : Nat) : BlockAwarePrefixCache :=
  (c.onPaged (fun m => m.freeBlock b)).2

def dropPin (c : BlockAwarePrefixCache) (b : Nat) : BlockAwarePrefixCache :=
  freeBlock { c with pinnedBlocks := c.pinnedBlocks.erase b } b

/-- `_expire_pinned_blocks`: an expiry of 0 stands for a permanent pin. -/
def expirePinnedBlocks (c : BlockAwarePrefixCache) (now : Nat) : BlockAwarePrefixCache :=
  ((c.pinnedBlocks.entries.filter (fun e => e.2 ≠ 0 ∧ now ≥ e.2)).map Prod.fst).foldl dropPin c

def maybeExpirePinnedBlocks (c : BlockAwarePrefixCache) (now : Clocks) : BlockAwarePrefixCache :=
  if c.pinnedBlocks.entries = [] then c
  else if now.monotonic - c.lastPinExpiryCheck < pinExpiryCheckInterval then c
  else expirePinnedBlocks { c with lastPinExpiryCheck := now.monotonic } now.time

/-- The walk of `_find_best_prefix_match` over the chunks `i, ..., i + n - 1`, the last of which
may be short; a later match overwrites an earlier one. -/
def matchLoop (P : Params κ) (c : BlockAwarePrefixCache) (tokens : List Int)
    (extraKeys : Option (List κ)) :
    Nat → Nat → BlockHash → Nat → Option IndexEntry → Option IndexEntry
  | 0, _, _, _, best => best
  | n + 1, i, parentHash, prefixLen, best =>
    let ts := blockTokens P.blockSize tokens i
    let h := P.hash (some parentHash) ts extraKeys
    let len := prefixLen + ts.length
    let best := match c.prefixIndex.get? h with
      | some e => if e.prefixLen = len then some e else best
      | none => best
    matchLoop P c tokens extraKeys n (i + 1) h len best

/-- `_find_best_prefix_match` looks the salt up nowhere: `extraKeys` goes into every chunk. -/
def findBestPrefixMatch (P : Params κ) (c : BlockAwarePrefixCache) (tokens : List Int)
    (extraKeys : Option (List κ)) : Option IndexEntry :=
  if P.blockSize = 0 then none
  else matchLoop P c tokens extraKeys ((tokens.length + P.blockSize - 1) / P.blockSize) 0 [] 0 none

/-- The digest under which `_update_prefix_index` enters a block: the block's own, or one
computed on the spot. -/
def indexHash (P : Params κ) (s : Pool) (b : Nat) (parentHash : BlockHash) (ts : List Int)
    (extraKeys : Option (List κ)) : BlockHash :=
  match if b ∈ s.allocatedBlocks then (s.blocks b).blockHash else none with
  | some h => h
  | none => P.hash (some parentHash) ts extraKeys

def indexOne (c : BlockAwarePrefixCache) (h : BlockHash) (b : Nat) (e : IndexEntry) :
    BlockAwarePrefixCache :=
  let hashes := (c.blockIdToHashes.get? b).getD []
  { c with
    prefixIndex := c.prefixIndex.set h e
    blockIdToHashes := c.blockIdToHashes.set b (if h ∈ hashes then hashes else hashes ++ [h]) }

def updateLoop (P : Params κ) (tokens : List Int) (blockIds : List Nat)
    (extraKeys : Option (List κ)) :
    List Nat → Nat → BlockHash → Nat → BlockAwarePrefixCache → BlockAwarePrefixCache
  | [], _, _, _, c => c
  | b :: rest, i, parentHash, prefixLen, c =>
    let ts := blockTokens P.blockSize tokens i
    if ts = [] then c
    else
      let h := indexHash P c.pool b parentHash ts extraKeys
      let c := if b ∈ c.pool.allocatedBlocks then
        c.edit (fun s => s.modify b (fun d => { d with blockHash := some h })) else c
      let len := prefixLen + ts.length
      updateLoop P tokens blockIds extraKeys rest (i + 1) h len
        (c.indexOne h b ⟨len, blockIds.take (i + 1), i + 1⟩)

def updatePrefixIndex (P : Params κ) (c : BlockAwarePrefixCache) (tokens : List Int)
    (blockIds : List Nat) (extraKeys : Option (List κ)) : BlockAwarePrefixCache :=
  updateLoop P tokens blockIds extraKeys blockIds 0 [] 0 c

/-- An entry keeps the table it names when the manager takes it away or replaces it. -/
def keepTable (c : BlockAwarePrefixCache) (r : String) : BlockAwarePrefixCache :=
  match c.requestTables.get? r, c.pool.requestTables.get? r with
  | some (.tracked r'), some t =>
    if r' = r then { c with requestTables := c.requestTables.set r (.detached t) } else c
  | _, _ => c

def createBlockTable (c : BlockAwarePrefixCache) (r : String) : BlockAwarePrefixCache :=
  ((c.keepTable r).onPaged (fun m => ((), m.createBlockTable r))).2

def lostTables (c : BlockAwarePrefixCache) : Op κ → List String
  | .createBlockTable r | .deleteBlockTable r | .detachRequestTable r | .forkBlockTable _ r => [r]
  | .clear => c.requestTables.keys
  | _ => []

def setTable (c : BlockAwarePrefixCache) (t : BlockTable) : BlockAwarePrefixCache :=
  c.edit (fun s => s.setTable t)

def claimIndexed (P : Params κ) : List Nat → BlockAwarePrefixCache → List Nat × BlockAwarePrefixCache
  | [], c => ([], c)
  | b :: rest, c =>
    if b ∈ c.pool.allocatedBlocks ∧ (c.pool.blocks b).blockHash ≠ none then
      let r := claimIndexed P rest (c.onPaged (fun m => m.incrementRef P b)).2
      (b :: r.1, r.2)
    else ([], c)

def tokensOf (s : Pool) (bs : List Nat) : Nat := (bs.map (fun b => (s.blocks b).tokenCount)).sum

def fetchShared (c : BlockAwarePrefixCache) (r : String) (tokens : List Int) (shared : List Nat) :
    (Option BlockTable × List Int) × BlockAwarePrefixCache :=
  if shared = [] then ((none, tokens), c)
  else
    let t : BlockTable := ⟨r, shared, tokensOf c.pool shared⟩
    ((some t, tokens.drop t.numTokens), (c.createBlockTable r).setTable t)

/-- The index path of `fetch_cache`: when it finds a live block, the claims on the hash map's
blocks are given back. -/
def fetchIndexed (P : Params κ) (c : BlockAwarePrefixCache) (r : String) (tokens : List Int)
    (shared : List Nat) (e : IndexEntry) : (Option BlockTable × List Int) × BlockAwarePrefixCache :=
  let w := claimIndexed P (e.blockIds.take e.numBlocks) (c.createBlockTable r)
  if w.1 = [] then fetchShared w.2 r tokens shared
  else
    let t : BlockTable := ⟨r, w.1, tokensOf w.2.pool w.1⟩
    ((some t, tokens.drop t.numTokens), shared.foldl freeBlock (w.2.setTable t))

/-- `fetch_cache`. The request is entered in no table of the cache's own. -/
def fetchCache (P : Params κ) (c : BlockAwarePrefixCache) (ssd : Option (BlockHash → Bool))
    (now : Clocks) (r : String) (tokens : List Int) (args : KeyArgs κ) :
    Except PyError (Option BlockTable × List Int) × BlockAwarePrefixCache :=
  if tokens = [] then (.ok (none, tokens), c)
  else
    match (c.maybeExpirePinnedBlocks now).onPaged
      (fun m => m.getComputedBlocks P ssd tokens args true) with
    | (.error e, c) => (.error e, c)
    | (.ok (shared, sharedTokens), c) =>
      match c.findBestPrefixMatch P tokens args.extraKeys with
      | none =>
        let r := fetchShared c r tokens shared
        (.ok r.1, r.2)
      | some e =>
        let r := if e.prefixLen > sharedTokens then fetchIndexed P c r tokens shared e
          else fetchShared c r tokens shared
        (.ok r.1, r.2)

def tailHash (c : BlockAwarePrefixCache) (t : BlockTable) : Option BlockHash :=
  match t.blockIds.getLast? with
  | none => none
  | some b =>
    if b ∈ c.pool.allocatedBlocks then (c.pool.blocks b).blockHash.filter (· ≠ []) else none

def obtainBlock (P : Params κ) (c : BlockAwarePrefixCache) :
    Except PyError (Option Nat) × BlockAwarePrefixCache :=
  match c.onPaged (fun m => m.allocateBlock P) with
  | (.ok none, c) =>
    match c.onPaged (fun m => m.handleMemoryPressure 1) with
    | (false, c) => (.ok none, c)
    | (true, c) => c.onPaged (fun m => m.allocateBlock P)
  | r => r

def fillBlock (P : Params κ) (c : BlockAwarePrefixCache) (b : Nat) (ts : List Int)
    (parentHash : Option BlockHash) (salt : Option (List κ)) : BlockAwarePrefixCache :=
  let c := c.edit (fun s =>
    ((s.modify b (fun d => { d with tokenCount := ts.length })).bump (fun u =>
      { u with totalTokensCached := u.totalTokensCached + ts.length })).modify b (fun d =>
        { d with blockHash := some (P.hash parentHash ts salt) }))
  (c.onPaged (fun m => ((), m.registerBlockHash P b ts parentHash salt))).2

/-- How a round of the store loop ends: with the next one, with a `break`, or with an exception. -/
inductive RoundEnd where
  | next
  | stop
  | raised (e : PyError)

structure Round where
  outcome : RoundEnd
  table : BlockTable
  cache : BlockAwarePrefixCache

/-- One round of the store loop, for the full block `i` of the new tokens: share the block the
hash map has for it, or fill a new one and give it up again if it does not get persisted. -/
def storeRound (P : Params κ) (tier : StoreTier) (args : KeyArgs κ) (existingTokens : Nat)
    (newTokens : List Int) (i : Nat) (t : BlockTable) (c : BlockAwarePrefixCache) : Round :=
  let parentHash := c.tailHash t
  let ts := blockTokens P.blockSize newTokens i
  match resolveBlockExtraKeys (existingTokens + (i + 1) * P.blockSize) args with
  | .error e => ⟨.raised e, t, c⟩
  | .ok salt =>
    let f := c.onPaged (fun m => m.findCachedBlock P ts parentHash salt)
    match f.1.filter (fun _ => tier.resident i) with
    | some b => ⟨.next, addBlock t b ts.length, (f.2.onPaged (fun m => m.incrementRef P b)).2⟩
    | none =>
      match f.2.obtainBlock P with
      | (.error e, c) => ⟨.raised e, t, c⟩
      | (.ok none, c) => ⟨.stop, t, c⟩
      | (.ok (some b), c) =>
        let c := c.fillBlock P b ts parentHash salt
        if tier.persists i then ⟨.next, addBlock t b ts.length, c⟩
        else ⟨.stop, t, c.freeBlock b⟩

/-- The loop over the rounds `i, ..., i + n - 1`. The table is the tracked object: its last value
is written back behind the loop, an exception included. -/
def storeLoop (P : Params κ) (tier : StoreTier) (args : KeyArgs κ) (existingTokens : Nat)
    (newTokens : List Int) :
    Nat → Nat → BlockTable → BlockAwarePrefixCache → Except PyError BlockTable × BlockAwarePrefixCache
  | 0, _, t, c => (.ok t, c.setTable t)
  | n + 1, i, t, c =>
    let r := storeRound P tier args existingTokens newTokens i t c
    match r.outcome with
    | .next => storeLoop P tier args existingTokens newTokens n (i + 1) r.table r.cache
    | .stop => (.ok r.table, r.cache.setTable r.table)
    | .raised e => (.error e, r.cache.setTable r.table)

def openTable (c : BlockAwarePrefixCache) (r : String) : BlockTable × BlockAwarePrefixCache :=
  match c.pool.requestTables.get? r with
  | none => ({ requestId := r }, c.createBlockTable r)
  | some t => if t.blockIds = [] then ({ requestId := r }, c.createBlockTable r) else (t, c)

def storeCache (P : Params κ) (c : BlockAwarePrefixCache) (tier : StoreTier) (r : String)
    (tokens : List Int) (args : KeyArgs κ) :
    Except PyError (Option BlockTable) × BlockAwarePrefixCache :=
  if tokens = [] then (.ok none, c)
  else
    let o := c.openTable r
    let newTokens := tokens.drop o.1.numTokens
    if newTokens = [] then (.ok (some o.1), o.2)
    else if P.blockSize = 0 then (.error .zeroDivisionError, o.2)
    else
      match storeLoop P tier args o.1.numTokens newTokens (newTokens.length / P.blockSize) 0 o.1
        o.2 with
      | (.error e, c) => (.error e, c)
      | (.ok t, c) =>
        let c := c.updatePrefixIndex P tokens t.blockIds args.extraKeys
        (.ok (some t), { c with requestTables := c.requestTables.set r (.tracked r) })

def releaseCache (c : BlockAwarePrefixCache) (r : String) : BlockAwarePrefixCache :=
  match c.requestTables.get? r with
  | none => c
  | some _ =>
    (onPaged (fun m => ((), m.deleteBlockTable r))
      { c with requestTables := c.requestTables.erase r }).2

def clearRequestEntry (c : BlockAwarePrefixCache) (r : String) : BlockAwarePrefixCache :=
  c.releaseCache r

def clearRequestEntryNoFree (c : BlockAwarePrefixCache) (r : String) : BlockAwarePrefixCache :=
  match c.requestTables.get? r with
  | none => c
  | some _ =>
    (onPaged (fun m => m.detachRequestTable r)
      { c with requestTables := c.requestTables.erase r }).2

/-- The end of a stored request in the scheduler: `release_for_eviction` of its table's blocks,
then `clear_request_entry_no_free`. -/
def retire (c : BlockAwarePrefixCache) (r : String) : BlockAwarePrefixCache :=
  clearRequestEntryNoFree (match c.pool.requestTables.get? r with
    | none => c
    | some t => (c.onPaged (fun m => m.releaseForEviction t.blockIds)).2) r

def forkCache (P : Params κ) (c : BlockAwarePrefixCache) (source new : String) :
    Option BlockTable × BlockAwarePrefixCache :=
  match (c.requestTables.get? source).bind c.pool.readTable with
  | none => (none, c)
  | some t =>
    let c := (c.onPaged (fun m => ((), m.forkBlockTable P t new))).2
    (some { t with requestId := new },
      { c with requestTables := c.requestTables.set new (.tracked new) })

def pinOne (P : Params κ) (expiry : Nat) (c : BlockAwarePrefixCache) (b : Nat) :
    BlockAwarePrefixCache :=
  if b ∈ c.pinnedBlocks.keys then c
  else
    match c.onPaged (fun m => m.incrementRef P b) with
    | (true, c) => { c with pinnedBlocks := c.pinnedBlocks.set b expiry }
    | (false, c) => c

/-- `pin_prefix`. The clock is read for the sweep and again for the expiry; a `ttl` of 0 pins
for good. -/
def pinPrefix (P : Params κ) (c : BlockAwarePrefixCache) (tokens : List Int) (ttl : Option Nat)
    (sweepTime pinTime : Nat) : BlockAwarePrefixCache :=
  if tokens = [] then c
  else
    let c := c.expirePinnedBlocks sweepTime
    match c.findBestPrefixMatch P tokens none with
    | none => c
    | some e =>
      e.blockIds.foldl (pinOne P (if ttl.getD 0 = 0 then 0 else pinTime + ttl.getD 0)) c

def unpinOne (c : BlockAwarePrefixCache) (b : Nat) : BlockAwarePrefixCache :=
  if b ∈ c.pinnedBlocks.keys then c.dropPin b else c

def unpinPrefix (P : Params κ) (c : BlockAwarePrefixCache) (tokens : List Int) :
    BlockAwarePrefixCache :=
  if tokens = [] then c
  else
    match c.findBestPrefixMatch P tokens none with
    | none => c
    | some e => e.blockIds.foldl unpinOne c

def clear (P : Params κ) (c : BlockAwarePrefixCache) : BlockAwarePrefixCache :=
  let c := (onPaged (fun m => m.clear P) { c with
    requestTables := Dict.empty, prefixIndex := Dict.empty, blockIdToHashes := Dict.empty }).2
  { c with pagedCache := c.pagedCache.resetStats }

end BlockAwarePrefixCache

open BlockAwarePrefixCache

inductive Call (κ : Type) where
  | storeCache (tier : StoreTier) (r : String) (tokens : List Int) (args : KeyArgs κ)
  | fetchCache (ssd : Option (BlockHash → Bool)) (now : Clocks) (r : String) (tokens : List Int)
      (args : KeyArgs κ)
  | releaseCache (r : String)
  | clearRequestEntry (r : String)
  | clearRequestEntryNoFree (r : String)
  | retire (r : String)
  | forkCache (source new : String)
  | pinPrefix (tokens : List Int) (ttl : Option Nat) (sweepTime pinTime : Nat)
  | unpinPrefix (tokens : List Int)
  | expirePinnedBlocks (now : Nat)
  | clear
  | paged (op : Op κ)

variable {κ : Type}

def step (P : Params κ) (c : BlockAwarePrefixCache) : Call κ → BlockAwarePrefixCache
  | .storeCache tier r tokens args => (c.storeCache P tier r tokens args).2
  | .fetchCache ssd now r tokens args => (c.fetchCache P ssd now r tokens args).2
  | .releaseCache r => c.releaseCache r
  | .clearRequestEntry r => c.clearRequestEntry r
  | .clearRequestEntryNoFree r => c.clearRequestEntryNoFree r
  | .retire r => c.retire r
  | .forkCache source new => (c.forkCache P source new).2
  | .pinPrefix tokens ttl sweepTime pinTime => c.pinPrefix P tokens ttl sweepTime pinTime
  | .unpinPrefix tokens => c.unpinPrefix P tokens
  | .expirePinnedBlocks now => c.expirePinnedBlocks now
  | .clear => c.clear P
  | .paged op =>
    (((c.lostTables op).foldl .keepTable c).onPaged (fun m => ((), exec P m op))).2

namespace BlockAwarePrefixCache

variable {α : Type} (c : BlockAwarePrefixCache)

theorem onBlockFreed_frame (b : Nat) :
    (c.onBlockFreed b).pagedCache = c.pagedCache ∧ (c.onBlockFreed b).callback = c.callback ∧
      (c.onBlockFreed b).requestTables = c.requestTables ∧
      (c.onBlockFreed b).pinnedBlocks = c.pinnedBlocks := by
  simp only [onBlockFreed]
  split <;> exact ⟨rfl, rfl, rfl, rfl⟩

theorem foldl_onBlockFreed_frame (bs : List Nat) :
    (bs.foldl onBlockFreed c).pagedCache = c.pagedCache ∧
      (bs.foldl onBlockFreed c).callback = c.callback ∧
      (bs.foldl onBlockFreed c).requestTables = c.requestTables ∧
      (bs.foldl onBlockFreed c).pinnedBlocks = c.pinnedBlocks := by
  induction bs generalizing c with
  | nil => exact ⟨rfl, rfl, rfl, rfl⟩
  | cons b bs ih =>
    obtain ⟨h₁, h₂, h₃, h₄⟩ := onBlockFreed_frame c b
    obtain ⟨i₁, i₂, i₃, i₄⟩ := ih (c.onBlockFreed b)
    exact ⟨i₁.trans h₁, i₂.trans h₂, i₃.trans h₃, i₄.trans h₄⟩

@[simp] theorem onPaged_fst (op : Manager → α × Manager) :
    (c.onPaged op).1 = (op c.pagedCache).1 := rfl

@[simp] theorem onPaged_pagedCache (op : Manager → α × Manager) :
    (c.onPaged op).2.pagedCache = (op c.pagedCache).2 :=
  (foldl_onBlockFreed_frame _ _).1

@[simp] theorem onPaged_callback (op : Manager → α × Manager) :
    (c.onPaged op).2.callback = c.callback :=
  (foldl_onBlockFreed_frame _ _).2.1

@[simp] theorem onPaged_requestTables (op : Manager → α × Manager) :
    (c.onPaged op).2.requestTables = c.requestTables :=
  (foldl_onBlockFreed_frame _ _).2.2.1

@[simp] theorem onPaged_pinnedBlocks (op : Manager → α × Manager) :
    (c.onPaged op).2.pinnedBlocks = c.pinnedBlocks :=
  (foldl_onBlockFreed_frame _ _).2.2.2

/-- An operation that flushes nothing changes only the manager. -/
theorem onPaged_quiet {op : Manager → α × Manager}
    (h : (op c.pagedCache).2.trace = c.pagedCache.trace) :
    (c.onPaged op).2 = { c with pagedCache := (op c.pagedCache).2 } := by
  simp only [onPaged, h, List.drop_length, toldTo, List.filter_nil, List.map_nil, List.foldl_nil]

theorem keepTable_pagedCache (r : String) : (c.keepTable r).pagedCache = c.pagedCache := by
  unfold keepTable
  split
  · split <;> rfl
  · rfl

theorem keepTables_pagedCache (rs : List String) : (rs.foldl keepTable c).pagedCache = c.pagedCache := by
  induction rs generalizing c with
  | nil => rfl
  | cons r rs ih => exact (ih _).trans (c.keepTable_pagedCache r)

theorem createBlockTable_pagedCache (r : String) :
    (c.createBlockTable r).pagedCache = c.pagedCache.createBlockTable r := by
  rw [createBlockTable, onPaged_pagedCache, keepTable_pagedCache]

end BlockAwarePrefixCache

end FusionMlx.PrefixCache
