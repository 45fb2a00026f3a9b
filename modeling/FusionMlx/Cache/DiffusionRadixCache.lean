import FusionMlx.Support.CommonPrefix
import FusionMlx.Support.EdgeTree
import FusionMlx.Support.JsonText
import Mathlib.Data.List.Sort
import Mathlib.Data.Prod.Lex

/-!
# The radix cache of the diffusion models

`DiffusionRadixCache`: a tree of prompts, its counters and the heap of last
uses. A node is a number; what its object holds stands in a table beside the
tree, since the heap goes on to refer to nodes that the tree has lost. The
heap is kept as the list of its tuples in the order they are popped. Inferring
the size of a value is left to the caller, and the check of the calling thread
only logs.
-/
namespace FusionMlx.DiffusionRadixCache

open CommonPrefix EdgeTree
open JsonText (Text)

inductive PyError
  | typeError
  | attributeError
  | endless

abbrev Children := Branches Char Nat

variable {V : Type}

structure RadixNode (V : Type) where
  value : Option V := none
  sizeBytes : Nat := 0
  lastAccess : Nat := 0
  refCount : Nat := 0
  heapSeq : Int := 0

structure RadixCacheStats where
  hits : Nat := 0
  misses : Nat := 0
  evictions : Nat := 0
  insertions : Nat := 0
  leafCount : Int := 0
  totalBytes : Int := 0

abbrev HeapTuple := Nat × Int × Nat

structure Cache (V : Type) where
  maxBytes : Int
  maxNodes : Int
  root : Nat := 0
  tree : Children := .nil
  nodes : Nat → RadixNode V := fun _ => {}
  nextNode : Nat := 1
  stats : RadixCacheStats := {}
  clock : Nat := 0
  lruHeap : List HeapTuple := []
  heapSeq : Int := 0
  putsSinceCompact : Nat := 0

def init (maxMb maxNodes : Int) : Cache V := { maxBytes := maxMb * 1024 * 1024, maxNodes }

def heapCompactEvery : Nat := 4096

def commonPrefix (a b : Text) : Text := a.take (lcp a b)

def walk (node : Nat) : Children → Text → Option Nat
  | _, [] => some node
  | .nil, _ => none
  | .edge edge child below rest, remainder =>
    let common := commonPrefix remainder edge
    if common = [] then walk node rest remainder
    else if common = edge then walk child below (remainder.drop edge.length)
    else none

def walkOrCreate (node next : Nat) : Children → Text → Children × Nat × Nat
  | c, [] => (c, node, next)
  | .nil, remainder => (.edge remainder next .nil .nil, next, next + 1)
  | .edge edge child below rest, remainder =>
    let common := commonPrefix remainder edge
    if common = [] then
      let r := walkOrCreate node next rest remainder
      (.edge edge child below r.1, r.2)
    else if common = edge then
      let r := walkOrCreate child next below (remainder.drop edge.length)
      (.edge edge child r.1 rest, r.2)
    else
      let oldSuffix := edge.drop common.length
      let newSuffix := remainder.drop common.length
      if newSuffix = [] then
        (rest.snoc common next (.edge oldSuffix child below .nil), next, next + 1)
      else
        (rest.snoc common next (.edge oldSuffix child below (.edge newSuffix (next + 1) .nil .nil)),
          next + 1, next + 2)

/-- `_walk_prefix` with a prefix that is not empty: the node of the subtree with its children, and
the parent and edge it hangs on. -/
def walkPrefix (node : Nat) : Children → Text → Option (Nat × Children × Nat × Text)
  | .nil, _ => none
  | .edge edge child below rest, remainder =>
    let common := commonPrefix remainder edge
    if common = [] then walkPrefix node rest remainder
    else if common = edge then
      if remainder.drop common.length = [] then some (child, below, node, edge)
      else walkPrefix child below (remainder.drop common.length)
    else if common = remainder then some (child, below, node, edge)
    else none

def findParent (current : Nat) : Children → Nat → Option (Nat × Text)
  | .nil, _ => none
  | .edge edge child below rest, target =>
    if child = target then some (current, edge)
    else (findParent child below target).or (findParent current rest target)

def deleteEdge (parent : Nat) (edgeKey : Text) (current : Nat) : Children → Children
  | .nil => .nil
  | .edge edge child below rest =>
    if current = parent ∧ edge = edgeKey then rest
    else .edge edge child (deleteEdge parent edgeKey child below) (deleteEdge parent edgeKey current rest)

/-- `_cleanup_chains` of the children of a node. A child without a value that has one child of its
own gives way to it; the merged edges come behind the others. -/
def cleanupChains (vacant : Nat → Bool) : Children → Children → Children
  | .nil, merged => merged
  | .edge edge child below rest, merged =>
    match cleanupChains vacant below .nil with
    | .edge onlyEdge onlyChild onlyBelow .nil =>
      if vacant child then
        cleanupChains vacant rest (merged.snoc (edge ++ onlyEdge) onlyChild onlyBelow)
      else .edge edge child (.edge onlyEdge onlyChild onlyBelow .nil) (cleanupChains vacant rest merged)
    | below' => .edge edge child below' (cleanupChains vacant rest merged)

def older (nodes : Nat → RadixNode V) (best found : Option (Nat × Text × Nat)) :
    Option (Nat × Text × Nat) :=
  match best, found with
  | none, found => found
  | best, none => best
  | some b, some f => if (nodes f.2.2).lastAccess < (nodes b.2.2).lastAccess then some f else some b

def findLruChild (nodes : Nat → RadixNode V) (node : Nat) (best : Option (Nat × Text × Nat)) :
    Children → Option (Nat × Text × Nat)
  | .nil => best
  | .edge edge child below rest =>
    let found :=
      if below = .nil ∧ (nodes child).value.isSome then some (node, edge, child)
      else findLruChild nodes child none below
    findLruChild nodes node (older nodes best found) rest

namespace Cache

variable (s : Cache V)

def modifyNode (n : Nat) (f : RadixNode V → RadixNode V) : Cache V :=
  { s with nodes := Function.update s.nodes n (f (s.nodes n)) }

def vacant (n : Nat) : Bool := (s.nodes n).value.isNone

def find (key : Text) : Option Nat := walk s.root s.tree key

def findLruLeaf : Option (Option Nat × Text × Nat) :=
  if s.tree = .nil ∧ (s.nodes s.root).value.isSome then some (none, [], s.root)
  else (findLruChild s.nodes s.root none s.tree).map (fun f => (some f.1, f.2))

def heapLe (a b : HeapTuple) : Prop := a.1 < b.1 ∨ (a.1 = b.1 ∧ a.2.1 ≤ b.2.1)

instance : DecidableRel heapLe := fun a b => inferInstanceAs (Decidable (a.1 < b.1 ∨ (a.1 = b.1 ∧ a.2.1 ≤ b.2.1)))

def touch (n : Nat) : Cache V :=
  let s := { s with heapSeq := s.heapSeq + 1 }
  let s := s.modifyNode n (fun r => { r with heapSeq := s.heapSeq })
  { s with lruHeap := s.lruHeap.orderedInsert heapLe ((s.nodes n).lastAccess, s.heapSeq, n) }

def live (t : HeapTuple) : Bool :=
  (s.nodes t.2.2).value.isSome && decide ((s.nodes t.2.2).heapSeq = t.2.1)

def compactLruHeap : Cache V := { s with lruHeap := s.lruHeap.filter s.live }

/-- `_pop_lru_leaf`: what is left of the heap, and the parent, edge and node handed out. The result
of `_find_parent` is unpacked whether or not it found one. -/
def popLruLeaf : List HeapTuple → List HeapTuple × Except PyError (Option (Option Nat × Text × Nat))
  | [] => ([], .ok s.findLruLeaf)
  | t :: heap =>
    if s.live t then
      match findParent s.root s.tree t.2.2 with
      | none => (heap, .error .typeError)
      | some (parent, edgeKey) => (heap, .ok (some (some parent, edgeKey, t.2.2)))
    else popLruLeaf heap

inductive Round
  | over
  | skipped
  | evicted (node : Nat)

def evict (parent : Nat) (edgeKey : Text) (n : Nat) : Cache V :=
  let s := { s with
    stats := { s.stats with
      totalBytes := s.stats.totalBytes - (s.nodes n).sizeBytes
      leafCount := s.stats.leafCount - 1
      evictions := s.stats.evictions + 1 }
    tree := deleteEdge parent edgeKey s.root s.tree }
  let s := s.modifyNode n (fun r => { r with value := none, heapSeq := -1 })
  { s with tree := cleanupChains s.vacant s.tree .nil }

/-- One round of the loop of `_evict_if_needed` and `_evict_to_node_cap`, which differ in `full`. -/
def evictRound (full : Cache V → Bool) (skipped : Nat) : Except PyError (Cache V × Round) :=
  if full s ∧ 1 < s.stats.leafCount then
    if s.stats.leafCount ≤ skipped then .ok (s, .over)
    else
      let r := s.popLruLeaf s.lruHeap
      let s := { s with lruHeap := r.1 }
      match r.2 with
      | .error e => .error e
      | .ok none => .ok (s, .over)
      | .ok (some (parent, edgeKey, n)) =>
        if 0 < (s.nodes n).refCount then .ok (s, .skipped)
        else
          match parent with
          | none => .error .attributeError
          | some parent => .ok (s.evict parent edgeKey n, .evicted n)
  else .ok (s, .over)

def evictLoop (full : Cache V → Bool) : Nat → Nat → Cache V → Except PyError (Cache V × List Nat)
  | 0, _, _ => .error .endless
  | fuel + 1, skipped, s =>
    match s.evictRound full skipped with
    | .error e => .error e
    | .ok (s, .over) => .ok (s, [])
    | .ok (s, .skipped) => evictLoop full fuel (skipped + 1) s
    | .ok (s, .evicted n) => (evictLoop full fuel 0 s).map (fun r => (r.1, n :: r.2))

def rounds : Nat := s.lruHeap.length + s.stats.leafCount.toNat * (s.stats.leafCount.toNat + 1) + 1

def overBytes : Bool := decide (s.maxBytes < s.stats.totalBytes)

def overNodes : Bool := decide (s.maxNodes < s.stats.leafCount)

def evictIfNeeded : Except PyError (Cache V × List Nat) := evictLoop overBytes s.rounds 0 s

def evictToNodeCap : Except PyError (Cache V × List Nat) := evictLoop overNodes s.rounds 0 s

def get (now : Nat) (key : Text) : Cache V × Option V :=
  let s := { s with clock := now }
  match s.find key with
  | some n =>
    match (s.nodes n).value with
    | some v =>
      let s := (s.modifyNode n (fun r => { r with lastAccess := now })).touch n
      ({ s with stats := { s.stats with hits := s.stats.hits + 1 } }, some v)
    | none => ({ s with stats := { s.stats with misses := s.stats.misses + 1 } }, none)
  | none => ({ s with stats := { s.stats with misses := s.stats.misses + 1 } }, none)

def insert (now : Nat) (key : Text) (value : Option V) (sizeBytes : Nat) : Cache V :=
  let s := { s with clock := now }
  let (tree, n, next) := walkOrCreate s.root s.nextNode s.tree key
  let s := { s with tree, nextNode := next }
  let s :=
    if (s.nodes n).value.isNone then
      { s with stats := { s.stats with
        leafCount := s.stats.leafCount + 1, insertions := s.stats.insertions + 1 } }
    else { s with stats := { s.stats with totalBytes := s.stats.totalBytes - (s.nodes n).sizeBytes } }
  let s := s.modifyNode n (fun r => { r with value, sizeBytes, lastAccess := now })
  let s := s.touch n
  { s with stats := { s.stats with totalBytes := s.stats.totalBytes + sizeBytes } }

def maybeCompact : Cache V :=
  let s := { s with putsSinceCompact := s.putsSinceCompact + 1 }
  if heapCompactEvery ≤ s.putsSinceCompact then { s with putsSinceCompact := 0 }.compactLruHeap else s

def put (now : Nat) (key : Text) (value : Option V) (sizeBytes : Nat) : Except PyError (Cache V × List Nat) :=
  match (s.insert now key value sizeBytes).evictIfNeeded with
  | .error e => .error e
  | .ok (s, gone) =>
    let s := s.maybeCompact
    if s.overNodes then s.evictToNodeCap.map (fun r => (r.1, gone ++ r.2)) else .ok (s, gone)

def pin (key : Text) : Cache V × Bool :=
  match s.find key with
  | some n =>
    if (s.nodes n).value.isSome then (s.modifyNode n (fun r => { r with refCount := r.refCount + 1 }), true)
    else (s, false)
  | none => (s, false)

def unpin (key : Text) : Cache V × Bool :=
  match s.find key with
  | some n =>
    if 0 < (s.nodes n).refCount then (s.modifyNode n (fun r => { r with refCount := r.refCount - 1 }), true)
    else (s, false)
  | none => (s, false)

def pruneOne (n : Nat) : Cache V :=
  if (s.nodes n).value.isSome then
    let s := { s with stats := { s.stats with
      totalBytes := s.stats.totalBytes - (s.nodes n).sizeBytes
      leafCount := s.stats.leafCount - 1
      evictions := s.stats.evictions + 1 } }
    s.modifyNode n (fun r => { r with value := none, heapSeq := -1 })
  else s

def pruneSubtree (ns : List Nat) : Cache V × Nat :=
  (ns.foldl pruneOne s, (ns.filter (fun n => (s.nodes n).value.isSome)).length)

def dropPrefix (keyPrefix : Text) : Cache V × Nat :=
  if keyPrefix = [] then (s, 0)
  else
    match walkPrefix s.root s.tree keyPrefix with
    | none => (s, 0)
    | some (n, below, parent, edgeKey) =>
      let (s, freed) := s.pruneSubtree (n :: below.nodes)
      let s := { s with tree := deleteEdge parent edgeKey s.root s.tree }
      ({ s with tree := cleanupChains s.vacant s.tree .nil }, freed)

def clear : Cache V :=
  { s with
    root := 0, tree := .nil, nodes := fun _ => {}, nextNode := 1
    stats := {}, lruHeap := [], heapSeq := 0, putsSinceCompact := 0 }

def keyOf (n : Nat) : Option Text := ((s.tree.rooted s.root).find? (fun e => e.2 = n)).map Prod.fst

end Cache

/-- The calls, with the reading of the clock and the size of the value where they use them. -/
inductive Op (V : Type)
  | get (now : Nat) (key : Text)
  | put (now : Nat) (key : Text) (value : Option V) (sizeBytes : Nat)
  | pin (key : Text)
  | unpin (key : Text)
  | dropPrefix (keyPrefix : Text)
  | clear

inductive Out (V : Type)
  | value (v : Option V)
  | evicted (keys : List Text)
  | done (b : Bool)
  | freed (n : Nat)

namespace Cache

def call (s : Cache V) : Op V → Except PyError (Cache V × Out V)
  | .get now key => .ok ((s.get now key).1, .value (s.get now key).2)
  | .put now key value sizeBytes =>
    (s.put now key value sizeBytes).map
      (fun r => (r.1, .evicted (r.2.filterMap (s.insert now key value sizeBytes).keyOf)))
  | .pin key => .ok ((s.pin key).1, .done (s.pin key).2)
  | .unpin key => .ok ((s.unpin key).1, .done (s.unpin key).2)
  | .dropPrefix keyPrefix => .ok ((s.dropPrefix keyPrefix).1, .freed (s.dropPrefix keyPrefix).2)
  | .clear => .ok (s.clear, .done true)

def run (s : Cache V) : List (Op V) → Except PyError (Cache V × List (Out V))
  | [] => .ok (s, [])
  | op :: ops =>
    match s.call op with
    | .error e => .error e
    | .ok (s, out) => (run s ops).map (fun r => (r.1, out :: r.2))

end Cache

end FusionMlx.DiffusionRadixCache
