import FusionMlx.Support.Runs
import Mathlib.Data.Set.Card

/-!
# The radix index of stored token sequences

A trie with one token on an edge. `insert` adds one to the count of every node
on its path, whether the sequence was there or not; `remove` takes one away and
drops a leaf that comes to zero. The counts are those of the stored sequences as
long as no sequence is inserted while it is there.
-/
namespace FusionMlx.RadixIndex

inductive Children where
  | nil
  | cons (tok : Int) (isTerminal : Bool) (refCount : Int) (children rest : Children)

structure RadixNode where
  isTerminal : Bool := false
  refCount : Int := 0
  children : Children := .nil

namespace Children

def get : Children → Int → Option RadixNode
  | nil, _ => none
  | cons t terminal refs kids rest, tok => if t = tok then some ⟨terminal, refs, kids⟩ else rest.get tok

def set : Children → Int → RadixNode → Children
  | nil, tok, n => cons tok n.isTerminal n.refCount n.children nil
  | cons t terminal refs kids rest, tok, n =>
    if t = tok then cons t n.isTerminal n.refCount n.children rest
    else cons t terminal refs kids (rest.set tok n)

def erase : Children → Int → Children
  | nil, _ => nil
  | cons t terminal refs kids rest, tok =>
    if t = tok then rest else cons t terminal refs kids (rest.erase tok)

def isEmpty : Children → Bool
  | nil => true
  | cons .. => false

def sum (f : RadixNode → Int) : Children → Int
  | nil => 0
  | cons _ terminal refs kids rest => f ⟨terminal, refs, kids⟩ + rest.sum f

def size : Children → Nat
  | nil => 0
  | cons _ _ _ kids rest => kids.size + rest.size + 1

def paths : Children → List (List Int)
  | nil => []
  | cons t terminal _ kids rest =>
    (if terminal then [[t]] else []) ++ kids.paths.map (t :: ·) ++ rest.paths

end Children

namespace RadixNode

def find : RadixNode → List Int → Option RadixNode
  | n, [] => some n
  | n, t :: ts => (n.children.get t).bind fun child => child.find ts

def contains (n : RadixNode) (tokens : List Int) : Bool :=
  match n.find tokens with
  | some m => m.isTerminal
  | none => false

/-- What the loop of `insert` leaves: the node, the nodes it made, the tokens of the shared prefix and
whether the last node was no terminal one before. -/
structure Inserted where
  node : RadixNode
  created : Nat
  shared : Nat
  fresh : Bool

def insertLoop : RadixNode → List Int → Bool → Inserted
  | n, [], _ => ⟨{ n with isTerminal := true }, 0, 0, !n.isTerminal⟩
  | n, t :: ts, stillShared =>
    match n.children.get t with
    | none =>
      let below := insertLoop { refCount := 1 } ts false
      ⟨{ n with children := n.children.set t below.node }, below.created + 1, below.shared, below.fresh⟩
    | some child =>
      let below := insertLoop { child with refCount := child.refCount + 1 } ts stillShared
      ⟨{ n with children := n.children.set t below.node }, below.created,
        if stillShared then below.shared + 1 else below.shared, below.fresh⟩

def removeLoop : RadixNode → List Int → RadixNode × Nat
  | n, [] => ({ n with isTerminal := false }, 0)
  | n, t :: ts =>
    match n.children.get t with
    | none => (n, 0)
    | some found =>
      let (below, pruned) := removeLoop found ts
      let child := { below with refCount := below.refCount - 1 }
      if child.refCount ≤ 0 ∧ child.children.isEmpty then
        ({ n with children := n.children.erase t }, pruned + 1)
      else ({ n with children := n.children.set t child }, pruned)

def walk : RadixNode → List Int → Nat → Nat → Nat × Nat
  | _, [], depth, last => (depth, last)
  | n, t :: query, depth, last =>
    match n.children.get t with
    | none => (depth, last)
    | some child => child.walk query (depth + 1) (if child.isTerminal then depth + 1 else last)

end RadixNode

structure RadixStats where
  hits : Nat := 0
  misses : Nat := 0
  inserts : Nat := 0
  removes : Nat := 0
  dedupedPrefixBytesSaved : Nat := 0
  nodeCount : Int := 0
  entryCount : Int := 0
  maxDepth : Nat := 0

def bytesPerTokenInt32 : Nat := 4

structure Index where
  root : RadixNode := {}
  stats : RadixStats := {}

namespace Index

def insert (idx : Index) (tokens : List Int) : Index :=
  if tokens = [] then idx
  else
    let done := idx.root.insertLoop tokens true
    { root := done.node
      stats := { idx.stats with
        nodeCount := idx.stats.nodeCount + done.created
        maxDepth := max idx.stats.maxDepth tokens.length
        entryCount := if done.fresh then idx.stats.entryCount + 1 else idx.stats.entryCount
        inserts := idx.stats.inserts + 1
        dedupedPrefixBytesSaved := idx.stats.dedupedPrefixBytesSaved + done.shared * bytesPerTokenInt32 } }

def remove (idx : Index) (tokens : List Int) : Index × Bool :=
  if tokens = [] then (idx, false)
  else match idx.root.find tokens with
    | none => (idx, false)
    | some node =>
      if !node.isTerminal then (idx, false)
      else
        let (root, pruned) := idx.root.removeLoop tokens
        ({ root
           stats := { idx.stats with
            entryCount := idx.stats.entryCount - 1
            removes := idx.stats.removes + 1
            nodeCount := idx.stats.nodeCount - pruned } }, true)

def clear (idx : Index) : Index :=
  { root := {}, stats := { idx.stats with nodeCount := 0, entryCount := 0, maxDepth := 0 } }

def rebuildFromKeys (idx : Index) (keys : List (List Int)) : Index := keys.foldl insert idx.clear

def longestPrefix (idx : Index) (query : List Int) : Index × List Int × Option (List Int) :=
  let (depth, last) := idx.root.walk query 0 0
  if last > 0 then
    ({ idx with stats := { idx.stats with hits := idx.stats.hits + 1 } }, query.take last,
      some (query.take last))
  else ({ idx with stats := { idx.stats with misses := idx.stats.misses + 1 } }, query.take depth, none)

end Index

def pushAll (path : List Int) : Children → List (RadixNode × List Int) → List (RadixNode × List Int)
  | .nil, stack => stack
  | .cons t terminal refs kids rest, stack => pushAll path rest ((⟨terminal, refs, kids⟩, path ++ [t]) :: stack)

def stackSize (stack : List (RadixNode × List Int)) : Nat :=
  (stack.map fun e => e.1.children.size + 1).sum

theorem stackSize_pushAll (path : List Int) (cs : Children) (stack : List (RadixNode × List Int)) :
    stackSize (pushAll path cs stack) = cs.size + stackSize stack := by
  induction cs generalizing stack with
  | nil => simp [pushAll, Children.size]
  | cons t terminal refs kids rest _ ih =>
    rw [pushAll, ih]
    simp [stackSize, Children.size]
    omega

def collectLoop : List (RadixNode × List Int) → List (List Int) → List (List Int)
  | [], out => out
  | (node, path) :: stack, out =>
    collectLoop (pushAll path node.children stack) (if node.isTerminal then out ++ [path] else out)
  termination_by stack => stackSize stack
  decreasing_by
    rw [stackSize_pushAll]
    simp [stackSize]

def Index.collectTerminalKeys (idx : Index) : List (List Int) := collectLoop [(idx.root, [])] []

inductive RawKey where
  | list (tokens : List (Option Int))
  | other

inductive File where
  | unreadable
  | notDict
  | dict (version : Option Int) (keys : Option (List RawKey))

def radixIndexVersion : Int := 1

def RawKey.tokens? : RawKey → Option (List Int)
  | .list tokens => if tokens.all Option.isSome then some (tokens.filterMap id) else none
  | .other => none

def File.keys? : File → Option (List (List Int))
  | .dict version (some raw) =>
    if version = some radixIndexVersion then some (raw.filterMap RawKey.tokens?) else none
  | _ => none

def Index.payload (idx : Index) : File :=
  .dict (some radixIndexVersion) (some (idx.collectTerminalKeys.map fun key => .list (key.map some)))

structure State where
  index : Index := {}
  disk : String → Option File := fun _ => none

namespace State

def save (s : State) (path : String) (written : Bool) : State :=
  if written then { s with disk := fun p => if p = path then some s.index.payload else s.disk p } else s

def load (s : State) (path : String) : State × Bool :=
  match (s.disk path).bind File.keys? with
  | none => (s, false)
  | some keys => ({ s with index := s.index.rebuildFromKeys keys }, true)

end State

end FusionMlx.RadixIndex
