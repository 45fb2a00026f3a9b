import FusionMlx.Cache.PrefixCache

/-!
# The radix prefix cache

`RadixPrefixCache` stores through a `BlockAwarePrefixCache` and looks up in a
trie over token blocks of its own. The trie is a heap of nodes: node 0 is the
root, the addresses from `size` on are not in use yet. Children are found by
the first token of their block.
-/
namespace FusionMlx.RadixTrie

open BlockHashing BlockPool OrderedDict PagedCacheManager PrefixCache

structure RadixNode where
  key : List Int := []
  blockId : Option Nat := none
  children : Dict Int Nat := Dict.empty
  parent : Option Nat := none
  parentKey : Option Int := none

structure Trie where
  nodes : Nat → RadixNode
  size : Nat
  nodeIndex : Dict Nat Nat

def firstToken (ts : List Int) : Int := ts.headD 0

def blockSlices (blockSize : Nat) (tokens : List Int) : List (List Int) :=
  (List.range (tokens.length / blockSize)).map (blockTokens blockSize tokens)

namespace Trie

def empty : Trie := ⟨fun _ => {}, 1, Dict.empty⟩

def modify (t : Trie) (a : Nat) (f : RadixNode → RadixNode) : Trie :=
  { t with nodes := Function.update t.nodes a (f (t.nodes a)) }

def walk (t : Trie) (usable : Nat → Bool) : List (List Int) → Nat → List Nat
  | [], _ => []
  | ts :: rest, a =>
    match (t.nodes a).children.get? (firstToken ts) with
    | none => []
    | some c =>
      match (t.nodes c).blockId with
      | none => []
      | some b => if (t.nodes c).key = ts ∧ usable b then b :: walk t usable rest c else []

def newChild (t : Trie) (a : Nat) (ts : List Int) : Trie :=
  { ({ t with
        nodes := Function.update t.nodes t.size
          { key := ts, parent := some a, parentKey := some (firstToken ts) } } : Trie).modify a
      (fun n => { n with children := n.children.set (firstToken ts) t.size }) with
    size := t.size + 1 }

def childFor (t : Trie) (a : Nat) (ts : List Int) : Nat × Trie :=
  match (t.nodes a).children.get? (firstToken ts) with
  | some c => if (t.nodes c).key = ts then (c, t) else (t.size, t.newChild a ts)
  | none => (t.size, t.newChild a ts)

def attach (t : Trie) (c b : Nat) : Trie :=
  match (t.nodes c).blockId with
  | some _ => t
  | none =>
    { t.modify c (fun n => { n with blockId := some b }) with nodeIndex := t.nodeIndex.set b c }

def index : List (List Int) → List Nat → Nat → Trie → Trie
  | ts :: slices, b :: ids, a, t =>
    let r := t.childFor a ts
    index slices ids r.1 (r.2.attach r.1 b)
  | _, _, _, t => t

def prune : Nat → Nat → Trie → Trie
  | 0, _, t => t
  | n + 1, a, t =>
    match (t.nodes a).parent with
    | none => t
    | some p =>
      if (t.nodes a).blockId = none ∧ (t.nodes a).children.entries = [] then
        prune n p (match (t.nodes a).parentKey with
          | none => t
          | some k =>
            if (t.nodes p).children.get? k = some a then
              t.modify p (fun n => { n with children := n.children.erase k })
            else t)
      else t

/-- `_on_block_freed`. A parent is older than its child, so the walk up from `a` ends within
`a + 1` steps. -/
def onBlockFreed (t : Trie) (b : Nat) : Trie :=
  match t.nodeIndex.get? b with
  | none => t
  | some a =>
    prune (a + 1) a { t.modify a (fun n => { n with blockId := none }) with
      nodeIndex := t.nodeIndex.erase b }

def dropStale (usable : Nat → Bool) (t : Trie) (e : Nat × Nat) : Trie :=
  if usable e.1 then t
  else { t.modify e.2 (fun n => { n with blockId := none }) with nodeIndex := t.nodeIndex.erase e.1 }

end Trie

structure RadixPrefixCache where
  kvCache : BlockAwarePrefixCache
  callback : Nat
  trie : Trie
  requestTables : List String

namespace RadixPrefixCache

variable {κ : Type}

abbrev pool (c : RadixPrefixCache) : Pool := c.kvCache.pool

def onKv {α : Type} (call : BlockAwarePrefixCache → α × BlockAwarePrefixCache)
    (c : RadixPrefixCache) : α × RadixPrefixCache :=
  let r := call c.kvCache
  (r.1, { c with
    kvCache := r.2
    trie := (BlockAwarePrefixCache.toldTo c.callback (r.2.pagedCache.trace.drop
      c.kvCache.pagedCache.trace.length)).foldl Trie.onBlockFreed c.trie })

def init (m : Manager) : RadixPrefixCache :=
  { kvCache :=
      { BlockAwarePrefixCache.init m with
        pagedCache := m.registerBlockFreedCallback.registerBlockFreedCallback }
    callback := m.callbacks + 1
    trie := Trie.empty
    requestTables := [] }

def usable (s : Pool) (b : Nat) : Bool := b ∈ s.allocatedBlocks ∧ (s.blocks b).blockHash ≠ none

def addRequest (c : RadixPrefixCache) (r : String) : RadixPrefixCache :=
  { c with requestTables := if r ∈ c.requestTables then c.requestTables else c.requestTables ++ [r] }

@[simp] theorem addRequest_trie (c : RadixPrefixCache) (r : String) :
    (c.addRequest r).trie = c.trie := rfl

def dropRequest (c : RadixPrefixCache) (r : String) : RadixPrefixCache :=
  { c with requestTables := c.requestTables.filter (· ≠ r) }

@[simp] theorem dropRequest_trie (c : RadixPrefixCache) (r : String) :
    (c.dropRequest r).trie = c.trie := rfl

/-- `fetch_cache`; the salt arguments are not looked at. -/
def fetchCache (P : Params κ) (c : RadixPrefixCache) (r : String) (tokens : List Int)
    (_args : KeyArgs κ) : Except PyError (Option BlockTable × List Int) × RadixPrefixCache :=
  if tokens = [] then (.ok (none, tokens), c)
  else if P.blockSize = 0 then (.error .zeroDivisionError, c)
  else
    let ids := c.trie.walk (usable c.pool) (blockSlices P.blockSize tokens) 0
    if ids = [] then (.ok (none, tokens), c)
    else
      let c := (c.onKv (fun k => ((), k.createBlockTable r))).2
      let c := ids.foldl (fun c b =>
        (c.onKv (fun k => k.onPaged (fun m => m.incrementRef P b))).2) c
      let live := ids.filter (· ∈ c.pool.allocatedBlocks)
      let t : BlockTable := ⟨r, live, BlockAwarePrefixCache.tokensOf c.pool live⟩
      (.ok (some t, tokens.drop (ids.length * P.blockSize)),
        ((c.onKv (fun k => ((), k.setTable t))).2).addRequest r)

def covers (P : Params κ) (tokens : List Int) (t : BlockTable) : Bool :=
  t.blockIds ≠ [] ∧ t.blockIds.length * P.blockSize = tokens.length - tokens.length % P.blockSize

def storeCache (P : Params κ) (c : RadixPrefixCache) (tier : StoreTier) (r : String)
    (tokens : List Int) (args : KeyArgs κ) :
    Except PyError (Option BlockTable) × RadixPrefixCache :=
  if tokens = [] then (.ok none, c)
  else
    match c.onKv (fun k => k.storeCache P tier r tokens args) with
    | (.error e, c) => (.error e, c)
    | (.ok none, c) => (.ok none, c)
    | (.ok (some t), c) =>
      if t.blockIds = [] then (.ok (some t), c)
      else if P.blockSize = 0 then (.error .zeroDivisionError, c)
      else if covers P tokens t then
        (.ok (some t), { c with
          trie := c.trie.index (blockSlices P.blockSize tokens) t.blockIds 0 }.addRequest r)
      else (.ok (some t), c)

def releaseCache (c : RadixPrefixCache) (r : String) : RadixPrefixCache :=
  ((c.onKv (fun k => ((), k.releaseCache r))).2).dropRequest r

/-- Other than `release_cache` this also deletes the table the manager tracks. -/
def clearRequestEntry (c : RadixPrefixCache) (r : String) : RadixPrefixCache :=
  let c := (c.onKv (fun k => ((), k.clearRequestEntry r))).2
  ((c.onKv (fun k => k.onPaged (fun m => ((), m.deleteBlockTable r)))).2).dropRequest r

def forkCache (P : Params κ) (c : RadixPrefixCache) (source new : String) :
    Option BlockTable × RadixPrefixCache :=
  match c.onKv (fun k => k.forkCache P source new) with
  | (none, c) => (none, c)
  | (some t, c) => (some t, c.addRequest new)

def clear (P : Params κ) (c : RadixPrefixCache) : Nat × RadixPrefixCache :=
  (c.requestTables.length + c.trie.nodeIndex.entries.length,
    (onKv (fun k => ((), k.clear P)) { c with trie := Trie.empty, requestTables := [] }).2)

def rebuildFromKeys (c : RadixPrefixCache) : RadixPrefixCache :=
  { c with trie := c.trie.nodeIndex.entries.foldl (Trie.dropStale (usable c.pool)) c.trie }

end RadixPrefixCache

open RadixPrefixCache

/-- A call of the cache, a callback that arrives, or a call of the manager by somebody else. -/
inductive Call (κ : Type) where
  | storeCache (tier : StoreTier) (r : String) (tokens : List Int) (args : KeyArgs κ)
  | fetchCache (r : String) (tokens : List Int) (args : KeyArgs κ)
  | blockFreed (b : Nat)
  | releaseCache (r : String)
  | clearRequestEntry (r : String)
  | forkCache (source new : String)
  | clear
  | rebuildFromKeys
  | paged (op : Op κ)

variable {κ : Type}

def step (P : Params κ) (c : RadixPrefixCache) : Call κ → RadixPrefixCache
  | .storeCache tier r tokens args => (c.storeCache P tier r tokens args).2
  | .fetchCache r tokens args => (c.fetchCache P r tokens args).2
  | .blockFreed b => { c with trie := c.trie.onBlockFreed b }
  | .releaseCache r => c.releaseCache r
  | .clearRequestEntry r => c.clearRequestEntry r
  | .forkCache source new => (c.forkCache P source new).2
  | .clear => (c.clear P).2
  | .rebuildFromKeys => c.rebuildFromKeys
  | .paged op => (c.onKv (fun k => k.onPaged (fun m => ((), exec P m op)))).2

end FusionMlx.RadixTrie
