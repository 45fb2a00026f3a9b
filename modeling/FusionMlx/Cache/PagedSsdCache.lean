import FusionMlx.Cache.PagedSsdIndex
import FusionMlx.Support.Runs

/-!
# The paged SSD cache

`PagedSSDCacheManager` with a cache directory and its writer thread. What a
block holds (its tensors and their metadata as they are written) is left
abstract, with its size and its content signature. A block is kept together
with the number of the metadata object of its save. A call of the manager is
one step, a step of the writer thread takes an item, persists it or ends it,
and the files an eviction has picked are unlinked one by one, outside the lock.
Times, the free disk space and the models of other managers come with the
calls. Statistics, temporary files and the orphan sweep are left out.
-/
namespace FusionMlx.PagedSsdCache

open OrderedDict

variable {η β σ : Type} [DecidableEq η] [DecidableEq σ]

structure Settings (β σ : Type) where
  expectedModelName : String := ""
  expectedNumLayers : Nat := 0
  expectedBlockSize : Nat := 0
  hotCacheMaxBytes : Nat := 0
  /-- The bytes of a block's tensors and the number of its layers. -/
  tensorBytes : β → Nat
  numLayers : β → Nat
  contentSignature : β → σ
  /-- `json.dumps` of the compatibility payload. -/
  dumps : String → Nat → Nat → List String → String

def canonicalizeLayerCacheTypes (types : List String) : List String :=
  types.map (fun ct =>
    if ct = "SizedArraysCache" then "ArraysCache"
    else if ct = "PrefillReadyRotatingKVCache" then "RotatingKVCache"
    else ct)

def cacheCompatSignature (S : Settings β σ) (modelName : String) (numLayers blockSize : Nat)
    (layerCacheTypes : Option (List String)) : String :=
  S.dumps modelName numLayers blockSize (canonicalizeLayerCacheTypes (layerCacheTypes.getD []))

def orElse {α : Type} [DecidableEq α] (zero a b : α) : α := if a = zero then b else a

structure Block (β : Type) where
  data : β
  save : Nat

structure Writing (η β : Type) where
  blockHash : η
  block : Block β
  persisted : Bool := false

structure Store (η β σ : Type) where
  expectedLayerCacheTypes : Option (List String) := none
  signatureSweepCompleted : Bool := false
  metas : Heap η σ
  made : Nat
  index : Index η := {}
  incompatible : Index η := {}
  hotCache : Dict η (Block β) := .empty
  hotCacheTotalBytes : Nat := 0
  pendingWrites : η → Option (Block β) := fun _ => none
  writeQueue : List (η × Block β) := []
  writing : Option (Writing η β) := none
  files : η → Option (Block β) := fun _ => none
  /-- The files that evictions have picked and not yet unlinked. -/
  unlinking : List η := []

namespace Store

variable (S : Settings β σ) (s : Store η β σ)

def trackedSsdSize : Nat := s.index.totalSize + s.incompatible.totalSize

def removeIndex (h : η) : Store η β σ := { s with index := s.index.remove s.metas h }

def removeIncompatible (h : η) : Store η β σ := { s with incompatible := s.incompatible.remove s.metas h }

def unlink (h : η) : Store η β σ := { s with files := Function.update s.files h none }

def pick (h : η) : Store η β σ := { s with unlinking := s.unlinking ++ [h] }

def capLoop : List (η × Block β) → Store η β σ → Store η β σ
  | [], s => s
  | (h, b) :: rest, s =>
    if 0 < S.hotCacheMaxBytes ∧ S.hotCacheMaxBytes < s.hotCacheTotalBytes ∧ 1 < s.hotCache.entries.length then
      capLoop rest { s with
        hotCache := s.hotCache.erase h
        hotCacheTotalBytes := s.hotCacheTotalBytes - S.tensorBytes b.data }
    else s

def hotCacheRemove (h : η) : Store η β σ :=
  match s.hotCache.get? h with
  | some b => { s with
      hotCache := s.hotCache.erase h
      hotCacheTotalBytes := s.hotCacheTotalBytes - S.tensorBytes b.data }
  | none => s

def hotCachePut (h : η) (b : Block β) : Store η β σ :=
  let s := s.hotCacheRemove S h
  let s := { s with
    hotCache := s.hotCache.set h b
    hotCacheTotalBytes := s.hotCacheTotalBytes + S.tensorBytes b.data }
  capLoop S s.hotCache.entries s

def hotCacheTouch (h : η) : Store η β σ := { s with hotCache := s.hotCache.moveToEnd h }

/-- The block is not stamped with the name of a model that is live in another manager. -/
def reclaimable (live : List String) (i : Nat) : Bool :=
  (s.metas i).modelName = "" || (s.metas i).modelName ∉ live

def reclaimableIncompatible (live : List String) (count : Nat) : List Nat :=
  (s.incompatible.getLruEntries s.metas (max 1 count)).filter (s.reclaimable live)

def pickReclaimableIncompatible (live : List String) : Option Nat :=
  (s.reclaimableIncompatible live s.incompatible.blocks.entries.length).head?

def evictIndex (i : Nat) : Store η β σ := (s.removeIndex (s.metas i).blockHash).pick (s.metas i).blockHash

def evictIncompatible (i : Nat) : Store η β σ :=
  (s.removeIncompatible (s.metas i).blockHash).pick (s.metas i).blockHash

def newBlockLoop (live : List String) (effective : Nat) : Nat → Nat → Store η β σ → Store η β σ
  | 0, _, s => s
  | n + 1, unlinksDone, s =>
    if effective < s.trackedSsdSize then
      match s.pickReclaimableIncompatible live with
      | some victim => newBlockLoop live effective n unlinksDone (s.evictIncompatible victim)
      | none =>
        if 32 ≤ unlinksDone then s
        else
          match s.index.getLruEntries s.metas 1 with
          | [] => s
          | victim :: _ => newBlockLoop live effective n (unlinksDone + 1) (s.evictIndex victim)
    else s

def enforceSizeLimitForNewBlock (live : List String) (effective : Nat) : Store η β σ :=
  newBlockLoop live effective (s.incompatible.blocks.entries.length + s.index.blocks.entries.length) 0 s

inductive Victim where
  | compatible (i : Nat)
  | incompatible (i : Nat)

def evict : Victim → Store η β σ
  | .compatible i => s.evictIndex i
  | .incompatible i => s.evictIncompatible i

def batchLoop (effective : Nat) : List Victim → Store η β σ → List Victim × Store η β σ
  | [], s => ([], s)
  | v :: rest, s =>
    if effective < s.trackedSsdSize then
      let r := batchLoop effective rest (s.evict v)
      (v :: r.1, r.2)
    else ([], s)

def batch (live : List String) (effective : Nat) : List Victim × Store η β σ :=
  let r := batchLoop effective ((s.reclaimableIncompatible live 32).map .incompatible) s
  let q := batchLoop effective ((r.2.index.getLruEntries r.2.metas (32 - r.1.length)).map .compatible) r.2
  (r.1 ++ q.1, q.2)

def enforceLoop (live : List String) (effective : Nat) : Nat → Store η β σ → List Victim × Store η β σ
  | 0, s => ([], s)
  | n + 1, s =>
    let r := s.batch live effective
    if r.1.isEmpty then ([], s)
    else if r.2.trackedSsdSize ≤ effective then r
    else
      let q := enforceLoop live effective n r.2
      (r.1 ++ q.1, q.2)

def enforceSizeLimit (live : List String) (effective : Nat) : List Victim × Store η β σ :=
  enforceLoop live effective 1000 s

def persistBlockFile (h : η) (b : Block β) (actualSize : Nat) : Store η β σ :=
  let s := { s with files := Function.update s.files h (some b) }
  if s.index.contains h then
    let r := s.index.updateFileSize s.metas h actualSize
    { s with index := r.1, metas := r.2 }
  else { s with metas := Function.update s.metas b.save { s.metas b.save with fileSize := actualSize } }

def popPending (h : η) : Store η β σ := { s with pendingWrites := Function.update s.pendingWrites h none }

def writeBlockInline (h : η) (b : Block β) (written : Option Nat) : Store η β σ :=
  (match written with
    | some actualSize => s.persistBlockFile h b actualSize
    | none => s.removeIndex h).popPending h

def touchIndex (h : η) (now : Nat) : Store η β σ :=
  let r := s.index.touch s.metas h now
  { s with index := r.1, metas := r.2 }

end Store

/-- The arguments of `save_block` and what it meets: the time, whether the queue
takes the item, the outcome of an inline write and the effective size limit. -/
structure SaveCall (β : Type) where
  data : Option β
  tokenCount : Nat := 0
  modelName : String := ""
  layerCacheTypes : Option (List String) := none
  verifyContent : Bool := false
  now : Nat
  queued : Bool
  written : Option Nat
  live : List String
  effective : Nat

namespace Store

variable (S : Settings β σ) (s : Store η β σ)

def newMetadata (h : η) (call : SaveCall β) (data : β) : BlockMetadata η σ :=
  let modelName := orElse "" call.modelName S.expectedModelName
  let blockSize := orElse 0 S.expectedBlockSize call.tokenCount
  { blockHash := h
    fileSize := S.tensorBytes data
    lastAccess := call.now
    numLayers := S.numLayers data
    modelName
    blockSize
    cacheSignature := cacheCompatSignature S modelName (S.numLayers data) blockSize call.layerCacheTypes
    contentHash := some (S.contentSignature data)
    layerCacheTypes := call.layerCacheTypes }

def deduped (h : η) (call : SaveCall β) : Bool :=
  match s.index.blocks.get? h with
  | none => false
  | some i =>
    if call.verifyContent then
      call.data.any (fun data => (s.metas i).contentHash = some (S.contentSignature data))
    else true

def registerBlock (h : η) (call : SaveCall β) (data : β) : Store η β σ :=
  let b : Block β := { data, save := s.made }
  let s := { s with
    metas := Function.update s.metas s.made (newMetadata S h call data)
    made := s.made + 1 }
  let s := s.hotCachePut S h b
  { s with
    index := s.index.add s.metas b.save
    pendingWrites := Function.update s.pendingWrites h (some b) }

def submitBlock (h : η) (b : Block β) (call : SaveCall β) : Store η β σ :=
  if call.queued then { s with writeQueue := s.writeQueue ++ [(h, b)] }
  else s.writeBlockInline h b call.written

def saveBlock (h : η) (call : SaveCall β) : Bool × Store η β σ :=
  if s.deduped S h call then (true, s.touchIndex h call.now)
  else
    match call.data with
    | none => (false, s)
    | some data =>
      (true, ((s.registerBlock S h call data).submitBlock h { data, save := s.made } call).enforceSizeLimitForNewBlock
        call.live call.effective)

def takeItem : Store η β σ :=
  match s.writing, s.writeQueue with
  | none, (h, b) :: rest => { s with writing := some { blockHash := h, block := b }, writeQueue := rest }
  | _, _ => s

def persistItem (written : Option Nat) : Store η β σ :=
  match s.writing with
  | some ⟨h, b, false⟩ =>
    let s := { s with writing := some ⟨h, b, true⟩ }
    match written with
    | some actualSize => s.persistBlockFile h b actualSize
    | none => s.removeIndex h
  | _ => s

def finishItem : Store η β σ :=
  match s.writing with
  | some ⟨h, _, true⟩ => { s.popPending h with writing := none }
  | _ => s

/-- `load_block` at the time `now`: whether the file, if it comes to that, can be read back, and if not, be unlinked. -/
def loadBlock (h : η) (now : Nat) (readable unlinked : Bool) : Option β × Store η β σ :=
  match s.pendingWrites h with
  | some b => (some b.data, s.hotCacheTouch h)
  | none =>
    match s.hotCache.get? h with
    | some b => (some b.data, s.hotCacheTouch h)
    | none =>
      if s.index.contains h then
        match s.files h with
        | none => (none, s.removeIndex h)
        | some b =>
          if readable then (some b.data, (s.hotCachePut S h b).touchIndex h now)
          else (none, (if unlinked then s.unlink h else s).removeIndex h)
      else (none, s)

def deleteBlock (h : η) (unlinked : Bool) : Bool × Store η β σ :=
  if s.index.contains h then
    let s := s.removeIndex h
    let s := if unlinked then s.unlink h else s
    (true, (s.hotCacheRemove S h).popPending h)
  else (false, s)

def forgetBlock (h : η) : Bool × Store η β σ :=
  match s.index.blocks.get? h with
  | none => (false, s)
  | some i =>
    let s := s.removeIndex h
    (true, { s with incompatible := s.incompatible.add s.metas i })

/-- `clear`, without the count; the files in `kept` could not be unlinked. -/
def clear (kept : List η) : Store η β σ :=
  { s with
    files := fun h =>
      if (s.index.contains h ∨ s.incompatible.contains h) ∧ h ∉ kept then none else s.files h
    index := {}
    incompatible := {}
    hotCache := .empty
    hotCacheTotalBytes := 0 }

def dropHot (h : η) : Store η β σ := s.hotCacheRemove S h

def unlinkNext (unlinked : Bool) : Store η β σ :=
  match s.unlinking with
  | [] => s
  | h :: rest =>
    let s := { s with unlinking := rest }
    if unlinked then s.unlink h else s

def adoptLayerSignatureIfUnset (types : List String) : Store η β σ :=
  if types = [] ∨ s.expectedLayerCacheTypes.isSome then s
  else { s with expectedLayerCacheTypes := some types, signatureSweepCompleted := false }

def setExpectedLayerSignature (types : List String) : Store η β σ :=
  if types = [] then s
  else if (s.expectedLayerCacheTypes.filter (· ≠ [])).map canonicalizeLayerCacheTypes =
      some (canonicalizeLayerCacheTypes types) then { s with expectedLayerCacheTypes := some types }
  else { s with expectedLayerCacheTypes := some types, signatureSweepCompleted := false }

def stale (types : List String) (i : Nat) : Bool :=
  (s.metas i).modelName ≠ "" && (s.metas i).modelName = S.expectedModelName &&
    (s.metas i).layerCacheTypes.any (fun ts =>
      canonicalizeLayerCacheTypes ts ≠ canonicalizeLayerCacheTypes types)

def invalidateStaleLayerSignature : Store η β σ :=
  match s.expectedLayerCacheTypes with
  | none | some [] => s
  | some types =>
    if S.expectedModelName = "" ∨ s.signatureSweepCompleted then s
    else
      { (s.index.blocks.entries.filter (fun e => s.stale S types e.2)).foldl (fun s e => s.removeIndex e.1) s with
        signatureSweepCompleted := true }

end Store

/-- What a scanned file says of itself, besides its hash: whether its format has
a version, its size and time on disk, and its metadata. -/
structure Header where
  versioned : Bool
  fileSize : Nat
  lastAccess : Nat
  numLayers : Nat
  modelName : String
  blockSize : Nat
  cacheSignature : String
  layerCacheTypes : Option (List String)

namespace Store

variable (S : Settings β σ) (s : Store η β σ)

def isCompatibleBlock (header : Header) : Bool :=
  if S.expectedModelName = "" then true
  else if 0 < S.expectedNumLayers ∧ header.numLayers ≠ S.expectedNumLayers then false
  else if header.modelName ≠ "" ∧ header.modelName ≠ S.expectedModelName then false
  else if 0 < S.expectedBlockSize ∧ 0 < header.blockSize ∧ header.blockSize ≠ S.expectedBlockSize then false
  else if s.expectedLayerCacheTypes.getD [] ≠ [] ∧ header.cacheSignature ≠ "" then
    header.cacheSignature = cacheCompatSignature S S.expectedModelName
      (orElse 0 S.expectedNumLayers header.numLayers) (orElse 0 S.expectedBlockSize header.blockSize)
      s.expectedLayerCacheTypes
  else true

def scanFile (h : η) (header : Header) : Store η β σ :=
  let compatible := header.versioned && s.isCompatibleBlock S header
  let m : BlockMetadata η σ :=
    { blockHash := h
      fileSize := header.fileSize
      lastAccess := header.lastAccess
      numLayers := header.numLayers
      modelName := header.modelName
      blockSize := if compatible then header.blockSize else 0
      cacheSignature := if compatible then header.cacheSignature else ""
      contentHash := none
      layerCacheTypes := if compatible then header.layerCacheTypes else none }
  let s := { s with metas := Function.update s.metas s.made m, made := s.made + 1 }
  if compatible then { s with index := s.index.add s.metas (s.made - 1) }
  else { s with incompatible := s.incompatible.add s.metas (s.made - 1) }

def startupLoop (live : List String) (effective : Nat) (kept : List η) : Nat → Store η β σ → Store η β σ
  | 0, s => s
  | n + 1, s =>
    if effective < s.trackedSsdSize then
      match s.pickReclaimableIncompatible live with
      | none => s
      | some victim =>
        let h := (s.metas victim).blockHash
        startupLoop live effective kept n ((if h ∈ kept then s else s.unlink h).removeIncompatible h)
    else s

def repairIndex : Store η β σ :=
  (s.index.blocks.keys.filter (fun h => (s.files h).isNone)).foldl removeIndex s

def scanDiskIndex (found : Dict η Header) (live : List String) (effective : Nat) (kept : List η) : Store η β σ :=
  let s := found.entries.foldl (fun s e => s.scanFile S e.1 e.2) s
  (startupLoop live effective kept s.incompatible.blocks.entries.length s).repairIndex

def opened (metas : Heap η σ) (files : η → Option (Block β)) (types : Option (List String)) : Store η β σ :=
  { expectedLayerCacheTypes := types, metas, made := 1, files }

end Store

inductive Op (η β : Type)
  | saveBlock (h : η) (call : SaveCall β)
  | takeItem
  | persistItem (written : Option Nat)
  | finishItem
  | loadBlock (h : η) (now : Nat) (readable unlinked : Bool)
  | deleteBlock (h : η) (unlinked : Bool)
  | forgetBlock (h : η)
  | clear (kept : List η)
  | dropHot (h : η)
  | enforceSizeLimit (live : List String) (effective : Nat)
  | unlinkNext (unlinked : Bool)
  | adoptLayerSignatureIfUnset (types : List String)
  | setExpectedLayerSignature (types : List String)
  | invalidateStaleLayerSignature

def next (S : Settings β σ) (s : Store η β σ) : Op η β → Store η β σ
  | .saveBlock h call => (s.saveBlock S h call).2
  | .takeItem => s.takeItem
  | .persistItem written => s.persistItem written
  | .finishItem => s.finishItem
  | .loadBlock h now readable unlinked => (s.loadBlock S h now readable unlinked).2
  | .deleteBlock h unlinked => (s.deleteBlock S h unlinked).2
  | .forgetBlock h => (s.forgetBlock h).2
  | .clear kept => s.clear kept
  | .dropHot h => s.dropHot S h
  | .enforceSizeLimit live effective => (s.enforceSizeLimit live effective).2
  | .unlinkNext unlinked => s.unlinkNext unlinked
  | .adoptLayerSignatureIfUnset types => s.adoptLayerSignatureIfUnset types
  | .setExpectedLayerSignature types => s.setExpectedLayerSignature types
  | .invalidateStaleLayerSignature => s.invalidateStaleLayerSignature S

/-- The files that were there before have no save of this manager. -/
def Opened (s : Store η β σ) : Prop :=
  ∃ metas files types, (∀ h b, files h = some b → b.save = 0) ∧ s = Store.opened metas files types

/-- A manager after its scan. -/
def Start (S : Settings β σ) (s : Store η β σ) : Prop :=
  ∃ s₀ : Store η β σ, Opened s₀ ∧ ∃ found live effective kept, s = s₀.scanDiskIndex S found live effective kept

end FusionMlx.PagedSsdCache
