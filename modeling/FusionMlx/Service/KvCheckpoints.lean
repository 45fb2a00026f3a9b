import FusionMlx.Support.OrderedDict
import FusionMlx.Cache.BlockHashing

/-!
# KV checkpoints on disk

A checkpoint has a body and a sidecar of the same name, in the directory of its
request. Both are written to a temporary file and renamed, the body first. A
cache is told by the tokens that it covers and the model that made it. The
digest is a parameter.
-/
namespace FusionMlx.KvCheckpoints

open OrderedDict BlockHashing

structure Cache where
  model : Option Bytes
  tokens : List Int

structure Path where
  reqHash : Bytes
  tokenOffset : Nat
  deriving DecidableEq

structure Body where
  cache : Cache
  tokenOffset : Nat
  kvDtype : Bytes
  requiresFullCheckpoint : Bool
  mtime : Nat
  size : Nat
  readable : Bool

structure ExtraMetadata where
  source : Option String := none
  requestId : Option Bytes := none
  promptHash : Option Bytes := none

structure Sidecar where
  tokenOffset : Nat
  kvDtype : Bytes
  requiresFullCheckpoint : Bool
  modelName : Option Bytes
  extra : ExtraMetadata

structure Root where
  bodies : Dict Path Body := Dict.empty
  bodyTmps : Dict Path Body := Dict.empty
  sidecars : Dict Path Sidecar := Dict.empty
  sidecarTmps : Dict Path Sidecar := Dict.empty

def requestHash (sha256 : Bytes → Bytes) (requestId : Bytes) (modelName : Option Bytes) : Bytes :=
  (sha256 (modelName.getD [] ++ [58, 58] ++ requestId)).take 16

def shouldCheckpoint (numTokens lastCheckpointAt interval : Nat) : Bool :=
  0 < interval ∧ interval ≤ numTokens ∧ lastCheckpointAt + interval ≤ numTokens

inductive FileStep where
  | bodyTmp | bodyRename | sidecarTmp | sidecarRename

namespace Root

def fileStep (path : Path) (body : Body) (sidecar : Sidecar) (r : Root) : FileStep → Root
  | .bodyTmp => { r with bodyTmps := r.bodyTmps.set path body }
  | .bodyRename =>
    match r.bodyTmps.get? path with
    | some b => { r with bodies := r.bodies.set path b, bodyTmps := r.bodyTmps.erase path }
    | none => r
  | .sidecarTmp => { r with sidecarTmps := r.sidecarTmps.set path sidecar }
  | .sidecarRename =>
    match r.sidecarTmps.get? path with
    | some m => { r with sidecars := r.sidecars.set path m, sidecarTmps := r.sidecarTmps.erase path }
    | none => r

def fileSteps (path : Path) (body : Body) (sidecar : Sidecar) (r : Root) (steps : List FileStep) : Root :=
  steps.foldl (fileStep path body sidecar) r

def cleaned (r : Root) : Root := { r with bodyTmps := Dict.empty, sidecarTmps := Dict.empty }

def scanCheckpoints (r : Root) : List (Path × Body) :=
  r.bodies.entries.insertionSort fun a b => a.2.mtime ≤ b.2.mtime

end Root

/-- How a write ends: after some file steps by a crash, by an error of the body's or of the sidecar's files, or
regularly. -/
inductive WriteEnd where
  | crash (done : Nat)
  | bodyFails
  | sidecarFails
  | regular

/-- `write_checkpoint`; the statistics scan at the end clears temporary files. -/
def writeCheckpoint (path : Path) (body : Body) (sidecar : Sidecar) (ending : WriteEnd) (r : Root) : Root :=
  match ending with
  | .crash done => r.fileSteps path body sidecar ([.bodyTmp, .bodyRename, .sidecarTmp, .sidecarRename].take done)
  | .bodyFails => { r with bodyTmps := r.bodyTmps.erase path }
  | .sidecarFails => (r.fileSteps path body sidecar [.bodyTmp, .bodyRename]).cleaned
  | .regular => (r.fileSteps path body sidecar [.bodyTmp, .bodyRename, .sidecarTmp, .sidecarRename]).cleaned

structure Written where
  requestId : Bytes
  modelName : Option Bytes
  promptTokenIds : List Int
  generated : List Int
  numTokens : Nat
  covered : numTokens ≤ (promptTokenIds ++ generated).length
  kvDtype : Bytes
  requiresFullCheckpoint : Bool
  mtime : Nat
  size : Nat
  readable : Bool

def Written.cache (w : Written) : Cache where
  model := w.modelName
  tokens := (w.promptTokenIds ++ w.generated).take w.numTokens

def Written.body (w : Written) (tokenOffset : Nat) : Body where
  cache := w.cache
  tokenOffset := tokenOffset
  kvDtype := w.kvDtype
  requiresFullCheckpoint := w.requiresFullCheckpoint
  mtime := w.mtime
  size := w.size
  readable := w.readable

def Written.sidecar (w : Written) (tokenOffset : Nat) (extra : ExtraMetadata) : Sidecar where
  tokenOffset := tokenOffset
  kvDtype := w.kvDtype
  requiresFullCheckpoint := w.requiresFullCheckpoint
  modelName := w.modelName
  extra := extra

def disconnectPersist : String := "disconnect_persist"

def promptHash (sha256 : Bytes → Bytes) (promptTokenIds : List Int) (numTokens : Nat) : Bytes :=
  sha256 ([44].intercalate ((promptTokenIds.take numTokens).map strInt))

def persistPath (sha256 : Bytes → Bytes) (w : Written) : Path := ⟨requestHash sha256 w.requestId w.modelName, w.numTokens⟩

def persistExtra (sha256 : Bytes → Bytes) (w : Written) (givesPrompt : Bool) : ExtraMetadata where
  source := some disconnectPersist
  requestId := some w.requestId
  promptHash :=
    if givesPrompt ∧ w.promptTokenIds ≠ [] then some (promptHash sha256 w.promptTokenIds w.numTokens) else none

def persistRequestKv (sha256 : Bytes → Bytes) (interval : Nat) (w : Written) (hasLayers givesPrompt : Bool) (ending : WriteEnd)
    (r : Root) : Root :=
  if interval = 0 ∨ hasLayers = false ∨ w.numTokens = 0 then r
  else
    writeCheckpoint (persistPath sha256 w) (w.body w.numTokens) (w.sidecar w.numTokens (persistExtra sha256 w givesPrompt)) ending r

def evictLoop (maxBytes : Nat) (bodyFails sidecarFails : Path → Bool) : Nat → List (Path × Body) → Root → Root
  | _, [], r => r
  | total, (path, body) :: entries, r =>
    if total ≤ maxBytes then r
    else if bodyFails path then evictLoop maxBytes bodyFails sidecarFails total entries r
    else
      evictLoop maxBytes bodyFails sidecarFails (total - body.size) entries
        { r with
          bodies := r.bodies.erase path
          sidecars := if sidecarFails path then r.sidecars else r.sidecars.erase path }

def enforceDiskCap (maxBytes : Nat) (bodyFails sidecarFails : Path → Bool) (r : Root) : Root :=
  let entries := r.scanCheckpoints
  let total := (entries.map fun e => e.2.size).sum
  if maxBytes = 0 ∨ total ≤ maxBytes then r.cleaned
  else evictLoop maxBytes bodyFails sidecarFails total entries r.cleaned

def removeAll {ν : Type} (paths : List Path) (d : Dict Path ν) : Dict Path ν := paths.foldl Dict.erase d

def Root.hasFiles (reqHash : Bytes) (r : Root) : Bool :=
  (r.bodies.keys ++ r.bodyTmps.keys ++ r.sidecars.keys ++ r.sidecarTmps.keys).any fun p => p.reqHash = reqHash

/-- `cleanup_request`; the directory of the request may be there without files, and a removal tree that
ignores errors may leave some. -/
def cleanupRequest (reqHash : Bytes) (emptyDir : Bool) (keepsBody keepsSidecar : Path → Bool) (r : Root) : Root :=
  if r.hasFiles reqHash ∨ emptyDir then
    ({ r with
      bodies := removeAll (r.bodies.keys.filter fun p => p.reqHash = reqHash ∧ keepsBody p = false) r.bodies
      sidecars := removeAll (r.sidecars.keys.filter fun p => p.reqHash = reqHash ∧ keepsSidecar p = false)
        r.sidecars }).cleaned
  else r

structure State where
  root : Root := {}
  lastCapPass : Option Nat := none

structure CapPass where
  now : Nat
  maxBytes : Nat
  bodyFails : Path → Bool
  sidecarFails : Path → Bool

/-- `_maybe_enforce_disk_cap`, every 300 seconds at most. -/
def maybeEnforceDiskCap (pass : CapPass) (s : State) : State :=
  if s.lastCapPass.any fun last => pass.now - last < 300 then s
  else { root := enforceDiskCap pass.maxBytes pass.bodyFails pass.sidecarFails s.root, lastCapPass := some pass.now }

def boundary (numTokens interval : Nat) : Nat := numTokens / interval * interval

def maybeWriteCheckpoint (reqHash : Bytes) (w : Written) (hasLayers : Bool) (lastCheckpointAt interval : Nat)
    (extra : ExtraMetadata) (ending : WriteEnd) (pass : CapPass) (s : State) : State :=
  if shouldCheckpoint w.numTokens lastCheckpointAt interval = false ∨ hasLayers = false then s
  else
    let offset := boundary w.numTokens interval
    let root := writeCheckpoint ⟨reqHash, offset⟩ (w.body offset) (w.sidecar offset extra) ending s.root
    match ending with
    | .crash _ => { root := root, lastCapPass := none }
    | .bodyFails => { s with root := root }
    | .sidecarFails | .regular => maybeEnforceDiskCap pass { s with root := root }

def WriteEnd.isCrash : WriteEnd → Bool
  | .crash _ => true
  | _ => false

inductive Action where
  | persist (interval : Nat) (w : Written) (hasLayers givesPrompt : Bool) (ending : WriteEnd)
  | maybeWrite (reqHash : Bytes) (w : Written) (hasLayers : Bool) (lastCheckpointAt interval : Nat) (extra : ExtraMetadata)
      (ending : WriteEnd) (pass : CapPass)
  | enforceDiskCap (maxBytes : Nat) (bodyFails sidecarFails : Path → Bool)
  | cleanupRequest (reqHash : Bytes) (emptyDir : Bool) (keepsBody keepsSidecar : Path → Bool)

def step (sha256 : Bytes → Bytes) (s : State) : Action → State
  | .persist interval w hasLayers givesPrompt ending =>
    { root := persistRequestKv sha256 interval w hasLayers givesPrompt ending s.root
      lastCapPass := if ending.isCrash then none else s.lastCapPass }
  | .maybeWrite reqHash w hasLayers lastCheckpointAt interval extra ending pass =>
    maybeWriteCheckpoint reqHash w hasLayers lastCheckpointAt interval extra ending pass s
  | .enforceDiskCap maxBytes bodyFails sidecarFails =>
    { s with root := KvCheckpoints.enforceDiskCap maxBytes bodyFails sidecarFails s.root }
  | .cleanupRequest reqHash emptyDir keepsBody keepsSidecar =>
    { s with root := KvCheckpoints.cleanupRequest reqHash emptyDir keepsBody keepsSidecar s.root }

structure LoadedCheckpoint where
  cache : Cache
  tokenOffset : Nat
  kvDtype : Bytes
  requiresFullCheckpoint : Bool
  metadata : Option Sidecar
  path : Path

/-- `sidecar.get("kv_dtype") or embedded.get("kv_dtype", "bf16") or "bf16"`. -/
def storedDtype (sidecar : Option Sidecar) (body : Body) : Bytes :=
  let own := sidecar.elim [] Sidecar.kvDtype
  if own ≠ [] then own else if body.kvDtype ≠ [] then body.kvDtype else [98, 102, 49, 54]

def loadCheckpoint (path : Path) (r : Root) : Option LoadedCheckpoint :=
  match r.bodies.get? path with
  | none => none
  | some body =>
    if body.readable then
      let sidecar := r.sidecars.get? path
      some {
        cache := body.cache
        tokenOffset := sidecar.elim body.tokenOffset Sidecar.tokenOffset
        kvDtype := storedDtype sidecar body
        requiresFullCheckpoint := sidecar.elim body.requiresFullCheckpoint Sidecar.requiresFullCheckpoint
        metadata := sidecar
        path := path }
    else none

structure Candidate where
  offset : Nat
  mtime : Nat
  path : Path
  sidecar : Sidecar

def modelMatches (modelName stored : Option Bytes) : Bool :=
  modelName.getD [] = [] ∨ stored.getD [] = [] ∨ stored = modelName

def candidate (sha256 : Bytes → Bytes) (r : Root) (promptTokenIds : List Int) (modelName : Option Bytes)
    (entry : Path × Body) : Option Candidate :=
  match r.sidecars.get? entry.1 with
  | none => none
  | some sidecar =>
    if sidecar.extra.source = some disconnectPersist ∧ modelMatches modelName sidecar.modelName ∧ 0 < sidecar.tokenOffset ∧
        sidecar.tokenOffset ≤ promptTokenIds.length ∧
        sidecar.extra.promptHash = some (promptHash sha256 promptTokenIds sidecar.tokenOffset) then
      some ⟨sidecar.tokenOffset, entry.2.mtime, entry.1, sidecar⟩
    else none

def Before (a b : Candidate) : Prop := b.offset < a.offset ∨ a.offset = b.offset ∧ b.mtime ≤ a.mtime

instance : DecidableRel Before := fun _ _ => inferInstanceAs (Decidable (_ ∨ _))

def tryCandidate (sha256 : Bytes → Bytes) (r : Root) (promptTokenIds : List Int) (c : Candidate) : Option LoadedCheckpoint :=
  match loadCheckpoint c.path r with
  | none => none
  | some loaded =>
    let finalOffset := if loaded.tokenOffset = 0 then c.offset else loaded.tokenOffset
    if 0 < finalOffset ∧ finalOffset ≤ promptTokenIds.length ∧
        c.sidecar.extra.promptHash = some (promptHash sha256 promptTokenIds finalOffset) then some loaded
    else none

def findResumableKvForPrompt (sha256 : Bytes → Bytes) (interval : Nat) (promptTokenIds : List Int) (modelName : Option Bytes)
    (r : Root) : Option LoadedCheckpoint :=
  if interval = 0 ∨ promptTokenIds = [] then none
  else
    let candidates := r.scanCheckpoints.filterMap (candidate sha256 r promptTokenIds modelName)
    (candidates.insertionSort Before).findSome? (tryCandidate sha256 r promptTokenIds)

end FusionMlx.KvCheckpoints
