import FusionMlx.Cache.BlockHashing
import FusionMlx.Support.OrderedDict
import FusionMlx.Support.SortedIndex

/-!
# The memory-aware prefix cache

`MemoryAwarePrefixCache`: entries in the order of their last use, a sorted
list of their token keys and the memory they take. The layer objects belong
to another package and come in as parameters. Statistics are left out: no
operation reads them. The calls are taken one at a time, each with the lock.
-/
namespace FusionMlx.MemoryPrefixCache

open BlockHashing (PyError)
open OrderedDict SortedIndex

abbrev Tokens := List Int

variable {κ : Type}

/-- What the cache asks of the layers. `trimBy` and `decompress` are what a
fetch makes of a stored copy. -/
structure LayerOps (κ : Type) where
  trimmable : κ → Bool
  offset : κ → Option Int
  memory : List κ → Nat
  trimToOffset : List κ → List κ
  turboquant : List κ → List κ
  quantize : List κ → List κ
  trimBy : List κ → Nat → List κ
  decompress : List κ → List κ

/-- `availableMemory` is what the system reports, `0` when that fails;
`share n` is `int(n * max_memory_percent)`. -/
structure MemoryCacheConfig where
  maxMemoryMb : Option Int
  availableMemory : Nat
  share : Nat → Nat
  percentInRange : Bool
  maxEntries : Int
  kvQuantize : Bool
  kvTurboquant : Bool
  kvMinQuantizeTokens : Int

namespace MemoryCacheConfig

def validate (g : MemoryCacheConfig) : Except PyError Unit :=
  if g.percentInRange = false then .error .valueError
  else if g.maxEntries < 1 then .error .valueError
  else if g.kvMinQuantizeTokens < 0 then .error .valueError
  else .ok ()

def bytesPerMb : Nat := 1024 * 1024

def minMemoryBytes : Nat := 100 * bytesPerMb

def computeMemoryLimit (g : MemoryCacheConfig) : Int :=
  match g.maxMemoryMb with
  | some mb => mb * bytesPerMb
  | none =>
    if g.availableMemory > 0 then (max (g.share g.availableMemory) minMemoryBytes : Nat)
    else g.share (8 * 1024 * bytesPerMb)

end MemoryCacheConfig

structure CacheEntry (κ : Type) where
  tokens : Tokens
  cache : List κ
  memoryBytes : Nat

structure MemoryCache (κ : Type) where
  config : MemoryCacheConfig
  entries : Dict Tokens (CacheEntry κ)
  sortedKeys : List Tokens
  maxMemory : Int
  currentMemory : Int

inductive MatchKind where
  | copy | trim

structure Match (κ : Type) where
  entry : CacheEntry κ
  kind : MatchKind
  excess : Nat
  remaining : Tokens

namespace MemoryCache

def init (g : MemoryCacheConfig) : Except PyError (MemoryCache κ) := do
  g.validate
  .ok
    { config := g
      entries := Dict.empty
      sortedKeys := []
      maxMemory := g.computeMemoryLimit
      currentMemory := 0 }

def moveToEnd (c : MemoryCache κ) (key : Tokens) : Except PyError Unit × MemoryCache κ :=
  match c.entries.get? key with
  | none => (.error .keyError, c)
  | some e => (.ok (), { c with entries := (c.entries.erase key).set key e })

def drop (c : MemoryCache κ) (key : Tokens) : Except PyError Unit × MemoryCache κ :=
  match c.entries.get? key with
  | none => (.error .keyError, { c with sortedKeys := removeSorted c.sortedKeys key })
  | some old =>
    (.ok (), { c with
      sortedKeys := removeSorted c.sortedKeys key
      entries := c.entries.erase key
      currentMemory := c.currentMemory - old.memoryBytes })

def insert (c : MemoryCache κ) (e : CacheEntry κ) : MemoryCache κ :=
  { c with
    entries := c.entries.set e.tokens e
    currentMemory := c.currentMemory + e.memoryBytes
    sortedKeys := insort c.sortedKeys e.tokens }

def lookup (c : MemoryCache κ) (key : Tokens) : Except PyError (CacheEntry κ) :=
  match c.entries.get? key with
  | none => .error .keyError
  | some e => .ok e

/-- Backwards from the insertion point: the longest stored prefix. The empty
key is a prefix, so both keys have a first token where these are compared. -/
def scanPrefix (c : MemoryCache κ) (tokens : Tokens) :
    List Tokens → Except PyError (Option (CacheEntry κ))
  | [] => .ok none
  | key :: rest =>
    if tokens.length ≤ key.length then c.scanPrefix tokens rest
    else if tokens.take key.length = key then
      if 0 < key.length then (c.lookup key).map some else .ok none
    else if key.head? ≠ tokens.head? then .ok none
    else c.scanPrefix tokens rest

def scanSuper (c : MemoryCache κ) (tokens : Tokens) :
    Option (CacheEntry κ) → List Tokens → Except PyError (Option (CacheEntry κ))
  | best, [] => .ok best
  | best, key :: rest =>
    if key.length < tokens.length then c.scanSuper tokens best rest
    else if key.take tokens.length = tokens then
      if best.all (fun e => e.tokens.length < key.length) then
        match c.lookup key with
        | .error e => .error e
        | .ok e => c.scanSuper tokens (some e) rest
      else c.scanSuper tokens best rest
    else .ok best

def lcp : Tokens → Tokens → Nat
  | a :: as, b :: bs => if a = b then lcp as bs + 1 else 0
  | _, _ => 0

def scanLcp (c : MemoryCache κ) (tokens : Tokens) :
    Option (CacheEntry κ) × Nat → List Tokens → Except PyError (Option (CacheEntry κ) × Nat)
  | best, [] => .ok best
  | best, key :: rest =>
    if key = tokens then c.scanLcp tokens best rest
    else if min key.length tokens.length ≤ best.2 then c.scanLcp tokens best rest
    else if best.2 < lcp key tokens then
      match c.lookup key with
      | .error e => .error e
      | .ok e => c.scanLcp tokens (some e, lcp key tokens) rest
    else c.scanLcp tokens best rest

def neighbours (keys : List Tokens) (idx : Nat) : List Tokens :=
  (keys.take idx).getLast?.toList ++ (keys.drop idx).head?.toList

def hasNonTrimmable (L : LayerOps κ) (cache : List κ) : Bool := cache.any (fun l => !L.trimmable l)

def hit (c : MemoryCache κ) (m : Match κ) : Except PyError (Option (Match κ)) × MemoryCache κ :=
  match c.moveToEnd m.entry.tokens with
  | (.error e, c) => (.error e, c)
  | (.ok (), c) => (.ok (some m), c)

def matchLcp (L : LayerOps κ) (c : MemoryCache κ) (tokens : Tokens) :
    Except PyError (Option (Match κ)) × MemoryCache κ :=
  match c.scanLcp tokens (none, 0) (neighbours c.sortedKeys (bisectLeft c.sortedKeys tokens)) with
  | .error e => (.error e, c)
  | .ok (none, _) => (.ok none, c)
  | .ok (some e, n) =>
    if 0 < n ∧ hasNonTrimmable L e.cache = false then
      c.hit ⟨e, .trim, e.tokens.length - n, tokens.drop n⟩
    else (.ok none, c)

def matchLocked (L : LayerOps κ) (c : MemoryCache κ) (tokens : Tokens) :
    Except PyError (Option (Match κ)) × MemoryCache κ :=
  match c.entries.get? tokens with
  | some e => ((c.moveToEnd tokens).1.map fun _ => some ⟨e, .copy, 0, []⟩, (c.moveToEnd tokens).2)
  | none =>
    let idx := bisectLeft c.sortedKeys tokens
    match c.scanPrefix tokens (c.sortedKeys.take idx).reverse,
        c.scanSuper tokens none (c.sortedKeys.drop idx) with
    | .error e, _ => (.error e, c)
    | .ok _, .error e => (.error e, c)
    | .ok bestMatch, .ok bestSuper =>
      let excess := (bestSuper.map (fun e => e.tokens.length)).getD 0 - tokens.length
      match bestSuper.filter (fun e => !(decide (0 < excess) && hasNonTrimmable L e.cache)),
          bestMatch with
      | some e, _ => c.hit ⟨e, if 0 < excess then .trim else .copy, excess, []⟩
      | none, some e => c.hit ⟨e, .copy, 0, tokens.drop e.tokens.length⟩
      | none, none => c.matchLcp L tokens

def fetch (L : LayerOps κ) (c : MemoryCache κ) (tokens : Tokens) :
    Except PyError (Option (List κ) × Tokens) × MemoryCache κ :=
  if tokens = [] then (.ok (none, tokens), c)
  else
    match c.matchLocked L tokens with
    | (.error e, c) => (.error e, c)
    | (.ok none, c) => (.ok (none, tokens), c)
    | (.ok (some m), c) =>
      let out := match m.kind with
        | .trim => L.trimBy m.entry.cache m.excess
        | .copy => m.entry.cache
      (.ok (some (L.decompress out), m.remaining), c)

def prefixKeys (tokens : Tokens) : List Tokens → List Tokens
  | [] => []
  | key :: rest =>
    if tokens.length ≤ key.length then prefixKeys tokens rest
    else if tokens.take key.length = key then key :: prefixKeys tokens rest
    else if key.head? ≠ tokens.head? then []
    else prefixKeys tokens rest

def dropAll : List Tokens → MemoryCache κ → Except PyError Unit × MemoryCache κ
  | [], c => (.ok (), c)
  | key :: rest, c =>
    match c.drop key with
    | (.error e, c) => (.error e, c)
    | (.ok (), c) => dropAll rest c

def evictLru (c : MemoryCache κ) : Except PyError Unit × MemoryCache κ :=
  match c.entries.keys with
  | [] => (.ok (), c)
  | key :: _ => c.drop key

/-- Whether an entry of that size has to wait for an eviction. -/
def crowded (c : MemoryCache κ) (size : Nat) : Prop :=
  (c.maxMemory < c.currentMemory + size ∨ c.config.maxEntries ≤ c.entries.keys.length) ∧
    c.entries.keys ≠ []

instance (c : MemoryCache κ) (size : Nat) : Decidable (c.crowded size) := by
  unfold crowded
  infer_instance

def evictUntilRoom (size : Nat) : Nat → MemoryCache κ → Except PyError Unit × MemoryCache κ
  | 0, c => (.ok (), c)
  | fuel + 1, c =>
    if c.crowded size then
      match c.evictLru with
      | (.error e, c) => (.error e, c)
      | (.ok (), c) => evictUntilRoom size fuel c
    else (.ok (), c)

def storeEntry (c : MemoryCache κ) (e : CacheEntry κ) (evictPrefixes : Bool) :
    Except PyError Bool × MemoryCache κ :=
  if e.tokens ∈ c.entries.keys then
    ((c.moveToEnd e.tokens).1.map fun _ => true, (c.moveToEnd e.tokens).2)
  else
    let before := (c.sortedKeys.take (bisectLeft c.sortedKeys e.tokens)).reverse
    match dropAll (if evictPrefixes then prefixKeys e.tokens before else []) c with
    | (.error x, c) => (.error x, c)
    | (.ok (), c) =>
      match evictUntilRoom e.memoryBytes c.entries.keys.length c with
      | (.error x, c) => (.error x, c)
      | (.ok (), c) => (.ok true, c.insert e)

def compress (L : LayerOps κ) (g : MemoryCacheConfig) (tokens : Tokens) (cache : List κ) : List κ :=
  if g.kvTurboquant ∧ g.kvMinQuantizeTokens ≤ tokens.length then L.turboquant (L.trimToOffset cache)
  else if g.kvQuantize ∧ g.kvMinQuantizeTokens ≤ tokens.length then
    L.quantize (L.trimToOffset cache)
  else L.trimToOffset cache

def store (L : LayerOps κ) (c : MemoryCache κ) (tokens : Tokens) (cache : List κ)
    (evictPrefixes : Bool) : Except PyError Bool × MemoryCache κ :=
  if tokens = [] ∨ cache = [] then (.ok false, c)
  else if tokens ∈ c.entries.keys then
    ((c.moveToEnd tokens).1.map fun _ => true, (c.moveToEnd tokens).2)
  else
    let kept := compress L c.config tokens cache
    let entry := ⟨tokens, kept, L.memory kept⟩
    if c.maxMemory < entry.memoryBytes then (.ok false, c) else c.storeEntry entry evictPrefixes

def remove (c : MemoryCache κ) (tokens : Tokens) : Except PyError Bool × MemoryCache κ :=
  if tokens ∈ c.entries.keys then ((c.drop tokens).1.map fun _ => true, (c.drop tokens).2)
  else (.ok false, c)

def clear (c : MemoryCache κ) : MemoryCache κ :=
  { c with entries := Dict.empty, sortedKeys := [], currentMemory := 0 }

end MemoryCache

/-- One entry of `index.json` with the two files it names. `tokensBin` is the
content of the token file, of `tokensBytes` bytes; `promptCache` is `none`
where reading the layers raises. -/
structure DiskEntry (κ : Type) where
  numTokens : Nat
  filesExist : Bool
  cacheTypes : List String
  tokensBytes : Nat
  bodyComplete : Bool
  tokensBin : Tokens
  promptCache : Option (List κ)

structure Snapshot (κ : Type) where
  version : Nat
  entries : List (DiskEntry κ)

/-- What the directory and its `.new` and `.old` siblings hold: `none` for a
missing directory, `some none` for one without a readable index. -/
structure Disk (κ : Type) where
  main : Option (Option (Snapshot κ))
  new : Option (Option (Snapshot κ))
  old : Option (Option (Snapshot κ))

def cacheClassesCompatible (names : List String) (g : MemoryCacheConfig) : Bool :=
  names.all fun cn =>
    !(cn = "QuantizedKVCache" && !g.kvQuantize) && !(cn = "TurboQuantKVCache" && !g.kvTurboquant)

def hasValidIndex : Option (Option (Snapshot κ)) → Bool
  | some (some s) => s.version ≥ 2 && (s.entries.head?.map DiskEntry.filesExist).getD false
  | _ => false

def Disk.recover (d : Disk κ) : Option (Snapshot κ) :=
  match d.main with
  | some index => index
  | none =>
    if hasValidIndex d.new then d.new.bind id
    else if hasValidIndex d.old then d.old.bind id
    else none

namespace MemoryCache

def intact (g : MemoryCacheConfig) (d : DiskEntry κ) : Bool :=
  d.filesExist && cacheClassesCompatible d.cacheTypes g && d.tokensBytes = d.numTokens * 4 &&
    d.bodyComplete

def offsetMismatch (L : LayerOps κ) (tokens : Tokens) (cache : List κ) : Bool :=
  (cache.head?.bind L.offset).any (fun n => n ≠ (tokens.length : Int))

def readEntry (L : LayerOps κ) (g : MemoryCacheConfig) (d : DiskEntry κ) : Option (CacheEntry κ) :=
  if intact g d then
    let tokens := d.tokensBin.take d.numTokens
    match d.promptCache with
    | none => none
    | some cache =>
      if offsetMismatch L tokens cache then none else some ⟨tokens, cache, L.memory cache⟩
  else none

/-- The loop of `load_from_disk`; a key that is present is skipped before the
layers are read, which changes nothing but the log. -/
def loadEntries (L : LayerOps κ) : List (DiskEntry κ) → MemoryCache κ → Nat × MemoryCache κ
  | [], c => (0, c)
  | d :: ds, c =>
    match readEntry L c.config d with
    | none => loadEntries L ds c
    | some e =>
      if e.tokens ∈ c.entries.keys then loadEntries L ds c
      else if c.maxMemory < c.currentMemory + e.memoryBytes then (0, c)
      else ((loadEntries L ds (c.insert e)).1 + 1, (loadEntries L ds (c.insert e)).2)

def loadFromDisk (L : LayerOps κ) (c : MemoryCache κ) (d : Disk κ) : Nat × MemoryCache κ :=
  match d.recover with
  | none => (0, c)
  | some s => if s.version < 2 then (0, c) else loadEntries L s.entries c

end MemoryCache

inductive Op (κ : Type) where
  | store (tokens : Tokens) (cache : List κ) (evictPrefixes : Bool)
  | fetch (tokens : Tokens)
  | remove (tokens : Tokens)
  | clear
  | loadFromDisk (disk : Disk κ)

def exec (L : LayerOps κ) (c : MemoryCache κ) : Op κ → MemoryCache κ
  | .store tokens cache evictPrefixes => (c.store L tokens cache evictPrefixes).2
  | .fetch tokens => (c.fetch L tokens).2
  | .remove tokens => (c.remove tokens).2
  | .clear => c.clear
  | .loadFromDisk disk => (c.loadFromDisk L disk).2

end FusionMlx.MemoryPrefixCache
