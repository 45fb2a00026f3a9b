import FusionMlx.Support.OrderedDict
import FusionMlx.Support.Runs

/-!
# Boundary snapshots of a request and the payload of its cleanup

`scheduler/sched_boundary.py` and the two ends of it in
`scheduler/sched_response.py`. The state of a layer is the list of the tokens it
has absorbed; `none` is the empty tuple that stands for a skipped layer and for
a state the snapshot store could not encode. One request is followed through
its prefill, its decode steps and its cleanup.
-/
namespace FusionMlx.BoundarySnapshots

open OrderedDict

structure Layer where
  /-- Its class is one of `_KNOWN_SLICEABLE_CACHE_TYPES`. -/
  sliceable : Bool
  /-- `_prompt_cache_needs_snapshots` finds a part of it that is not sliceable. -/
  needsSnapshots : Bool
  /-- `_cache_tree_has_stateful_non_sliceable`. -/
  stateful : Bool
  /-- The snapshot store writes its state to the file. -/
  encodable : Bool

structure Config where
  blockSize : Nat
  layers : List Layer
  /-- `block_aware_cache` is there. -/
  blockAware : Bool
  /-- `_boundary_snapshot_store` is there. -/
  snapshotStore : Bool
  /-- `model.make_cache()` is there and does not raise. -/
  makeCache : Bool

variable {τ : Type}

abbrev States (τ : Type) : Type := List (Option (List τ))

def liveCache (cfg : Config) (tokens : List τ) : States τ := cfg.layers.map fun _ => some tokens

def snapshotCache (cfg : Config) (tokens : List τ) : States τ :=
  cfg.layers.map fun l => if l.sliceable then none else some tokens

def extractCacheStates (raw : States τ) (works : Bool) : States τ := if works then raw else []

structure Saved (τ : Type) where
  extracted : States τ
  written : Bool

/-- What a read of it gives: a state that was not encoded comes back from the file as a placeholder. -/
def Saved.read (cfg : Config) (s : Saved τ) : States τ :=
  if s.written then List.zipWith (fun l x => if l.encodable then x else none) cfg.layers s.extracted
  else s.extracted

inductive Saving
  | enqueued
  /-- Nothing was extracted, or it raised. -/
  | refused
  /-- The write queue is full: the buffered entry is taken out again. -/
  | dropped

inductive FinishReason
  | stop
  | length
  | other
  deriving DecidableEq

structure ParserResult where
  isStop : Bool
  recordToken : Option Bool

structure Response (τ : Type) where
  token : τ
  finishReason : Option FinishReason := none
  parser : Option ParserResult := none
  /-- The text-level fallback finds a stop string. -/
  stopString : Bool := false
  /-- `extract_cache` works. -/
  extracts : Bool := true
  saving : Saving := .enqueued
  /-- `prompt_cache` is there, is not sparse, and can be extracted. -/
  promptCache : Bool := true

def Response.reason (r : Response τ) : Option FinishReason :=
  match r.finishReason with
  | some reason => some reason
  | none =>
    match r.parser with
    | some p => if p.isStop then some .stop else none
    | none => if r.stopString then some .stop else none

def Response.recorded (r : Response τ) : Bool :=
  if r.finishReason = some .stop then false
  else
    match r.parser with
    | some p => p.recordToken.getD (r.reason != some .stop)
    | none => true

structure Provider (τ : Type) where
  validTcs : List Nat
  inMemory : Dict Nat (States τ)

structure Payload (τ : Type) where
  tokenSequence : List τ
  cache : States τ
  intermediate : Option (Provider τ)

structure Request (τ : Type) where
  prompt : List τ
  needsThinkPrefix : Bool
  /-- How much of the prompt the cache has absorbed before it is inserted. -/
  prefilled : Nat
  /-- The boundary the running prefill emitted last. -/
  emitted : Int := -1
  inserted : Bool := false
  output : List τ := []
  /-- Every token the batch generator has returned: its cache holds the prompt and these. -/
  returned : List τ := []
  /-- The rest of the responses of the running step. -/
  handed : List (Response τ) := []
  /-- `is_finished()`. -/
  finished : Bool := false
  /-- It is among the finished ids of the step. -/
  closing : Bool := false
  running : Bool := true
  /-- `_boundary_snapshot_required`. -/
  required : Option Bool := none
  /-- `_boundary_cache_snapshots` of this request: `none` marks one that is in the store. -/
  snapshots : Dict Nat (Option (States τ)) := Dict.empty
  store : Dict Nat (Saved τ) := Dict.empty
  extractedCache : Option (States τ) := none
  payload : Option (Payload τ) := none

namespace Request

def numTokens (s : Request τ) : Nat := s.prompt.length + s.output.length

def appendOutputToken (s : Request τ) (token : τ) : Request τ :=
  if s.finished then s else { s with output := s.output ++ [token] }

def load (cfg : Config) (store : Dict Nat (Saved τ)) (tc : Nat) : Option (States τ) :=
  (store.get? tc).map (Saved.read cfg)

def provided (cfg : Config) (q : Provider τ) (store : Dict Nat (Saved τ)) (tc : Nat) : Option (States τ) :=
  match q.inMemory.get? tc with
  | some c => some c
  | none => if cfg.snapshotStore then load cfg store tc else none

def keepSnapshot (cfg : Config) (s : Request τ) (tc : Nat) (snapshot : States τ) (saving : Saving) : Request τ :=
  if cfg.snapshotStore then
    match saving with
    | .enqueued =>
      { s with snapshots := s.snapshots.set tc none, store := s.store.set tc ⟨snapshot, false⟩ }
    | .refused => { s with snapshots := s.snapshots.set tc (some snapshot) }
    | .dropped =>
      { s with
        snapshots := s.snapshots.set tc (some snapshot)
        store := if (s.store.get? tc).any (·.written) then s.store else s.store.erase tc }
  else { s with snapshots := s.snapshots.set tc (some snapshot) }

def onPrefillBoundarySnapshot (cfg : Config) (s : Request τ) (tc : Nat) (tokens : List τ)
    (saving : Saving) : Request τ :=
  if !cfg.blockAware then s
  else if cfg.blockSize = 0 ∨ tc = 0 ∨ tc % cfg.blockSize ≠ 0 then s
  else if !cfg.layers.any (fun l => !l.sliceable && l.stateful) then s
  else if tc ∈ s.snapshots.keys then s
  else { keepSnapshot cfg s tc (snapshotCache cfg tokens) saving with required := some true }

def boundaryEnabled (cfg : Config) : Bool :=
  cfg.blockSize != 0 && cfg.blockAware && cfg.layers.any (·.needsSnapshots)

def emitPrefill (cfg : Config) (s : Request τ) (saving : Saving) : Request τ :=
  if boundaryEnabled cfg ∧ 0 < s.prefilled ∧ s.prefilled % cfg.blockSize = 0 ∧ s.emitted < s.prefilled then
    { onPrefillBoundarySnapshot cfg s s.prefilled (s.prompt.take s.prefilled) saving with
      emitted := s.prefilled }
  else s

def detectBoundarySnapshotNeed (cfg : Config) (s : Request τ) : Bool :=
  s.required.getD (cfg.makeCache && cfg.layers.any (·.stateful))

def captureDue (cfg : Config) (s : Request τ) : Bool :=
  cfg.blockAware && cfg.blockSize != 0 && s.numTokens != 0 && s.numTokens % cfg.blockSize == 0

/-- `_maybe_capture_boundary_snapshot`: the count is the request's, the state the batch generator's. -/
def maybeCaptureBoundarySnapshot (cfg : Config) (s : Request τ) (r : Response τ) : Request τ :=
  if captureDue cfg s then
    let s' := { s with required := some (detectBoundarySnapshotNeed cfg s) }
    if detectBoundarySnapshotNeed cfg s && r.extracts && !cfg.layers.isEmpty then
      keepSnapshot cfg s' s.numTokens (snapshotCache cfg (s.prompt ++ s.returned)) r.saving
    else s'
  else s

def record (s : Request τ) (r : Response τ) : Request τ :=
  if r.recorded then s.appendOutputToken r.token else s

def finish (cfg : Config) (s : Request τ) (r : Response τ) (reason : FinishReason) : Request τ :=
  let extracted := extractCacheStates (liveCache cfg (s.prompt ++ s.returned)) r.promptCache
  { s with
    finished := s.finished || reason != .other
    closing := true
    extractedCache := if extracted.isEmpty then s.extractedCache else some extracted }

def processResponse (cfg : Config) (s : Request τ) (r : Response τ) : Request τ :=
  match r.reason with
  | none => maybeCaptureBoundarySnapshot cfg (s.record r) r
  | some reason => finish cfg (s.record r) r reason

/-- A snapshot of the request is extracted, or loaded from the store. `works` says which of them can be. -/
def readSnapshot (cfg : Config) (s : Request τ) (works : Nat → Bool) (tc : Nat) : Option (States τ) :=
  match s.snapshots.get? tc with
  | none => none
  | some (some snapshot) =>
    let extracted := extractCacheStates snapshot (works tc)
    if extracted.isEmpty then none else some extracted
  | some none =>
    if cfg.snapshotStore && works tc then (load cfg s.store tc).filter (fun c => !c.isEmpty) else none

def validCounts (cfg : Config) (s : Request τ) (full : List τ) : List Nat :=
  (s.snapshots.keys.filter fun tc => 0 < tc ∧ tc ≤ full.length ∧ tc % cfg.blockSize = 0).mergeSort

def preExtracted (s : Request τ) (works : Nat → Bool) : List Nat → Dict Nat (States τ)
  | [] => Dict.empty
  | tc :: tcs =>
    match s.snapshots.get? tc with
    | some (some snapshot) =>
      let extracted := extractCacheStates snapshot (works tc)
      if extracted.isEmpty then preExtracted s works tcs else (preExtracted s works tcs).set tc extracted
    | _ => preExtracted s works tcs

def getBoundaryStoreOverride (cfg : Config) (s : Request τ) (full : List τ) (works : Nat → Bool) :
    Option (List τ × States τ × Provider τ) :=
  match (validCounts cfg s full).getLast? with
  | none => none
  | some latest =>
    match readSnapshot cfg s works latest with
    | none => none
    | some extracted =>
      let intermediate := (validCounts cfg s full).filter (· != latest)
      some (if latest < full.length then full.take latest else full, extracted,
        ⟨intermediate, preExtracted s works intermediate⟩)

def mergeBoundaryWithFullCache (boundary full : States τ) : States τ :=
  if full.isEmpty || boundary.length != full.length then boundary
  else List.zipWith (fun b f => if b.isNone then f else b) boundary full

def cacheableSequence (s : Request τ) : List τ :=
  if s.needsThinkPrefix then s.prompt else s.prompt ++ s.output

def makePayload (cfg : Config) (s : Request τ) (cache : States τ) (works : Nat → Bool) : Payload τ :=
  match getBoundaryStoreOverride cfg s s.cacheableSequence works with
  | none => ⟨s.cacheableSequence, cache, none⟩
  | some (tokens, boundary, provider) => ⟨tokens, mergeBoundaryWithFullCache boundary cache, some provider⟩

def cleanupFinished (cfg : Config) (s : Request τ) (works : Nat → Bool) : Request τ :=
  { s with
    running := false
    snapshots := Dict.empty
    payload :=
      if s.prompt.isEmpty || !cfg.blockAware then none
      else s.extractedCache.map fun cache => makePayload cfg s cache works }

def acceptTokens (s : Request τ) : List (τ × Bool) → Request τ
  | [] => s
  | (token, last) :: rest =>
    let s' := s.appendOutputToken token
    acceptTokens (if last then { s' with finished := true, closing := true } else s') rest

end Request

inductive Event (τ : Type)
  /-- A chunk of the prefill. -/
  | prefill (n : Nat) (saving : Saving)
  /-- The emission after the last chunk. -/
  | prefillEnd (saving : Saving)
  /-- The prefilled request goes into the batch generator. -/
  | insert
  /-- The batch generator returns the responses of a step. -/
  | generate (responses : List (Response τ))
  /-- The next of them is processed. -/
  | respond
  /-- It is dropped, since an abort is pending. -/
  | skip
  /-- A speculative step after the regular one. -/
  | accept (tokens : List (τ × Bool))
  /-- The writer of the snapshot store has written a snapshot. -/
  | written (tc : Nat)
  /-- A snapshot is evicted from the store, or its write failed. -/
  | lost (tc : Nat)
  /-- Nothing came back and nothing was recorded: the request waits for another prefill. -/
  | reschedule (cached : Nat)
  /-- The batch generator is given up: the snapshots of every request are cleared. -/
  | recover (cached : Nat)
  | cleanup (works : Nat → Bool)

namespace Request

def advance (s : Request τ) (n : Nat) : Request τ :=
  { s with prefilled := max s.prefilled (min (s.prefilled + n) (s.prompt.length - 1)) }

def waitAgain (s : Request τ) (cached : Nat) : Request τ :=
  { s with
    prefilled := min cached (s.prompt.length - 1), emitted := -1, inserted := false, output := [], returned := []
    handed := [], finished := false, closing := false, extractedCache := none }

def next (cfg : Config) (s : Request τ) : Event τ → Request τ
  | .prefill n saving =>
    if s.running && !s.inserted then (s.advance n).emitPrefill cfg saving else s
  | .prefillEnd saving => if s.running && !s.inserted then s.emitPrefill cfg saving else s
  | .insert => if s.running then { s with inserted := true } else s
  | .generate responses =>
    if s.running && s.inserted && !s.closing && s.handed.isEmpty then
      { s with returned := s.returned ++ responses.map (·.token), handed := responses }
    else s
  | .respond =>
    if s.running then
      match s.handed with
      | [] => s
      | r :: rest => processResponse cfg { s with handed := rest } r
    else s
  | .skip => if s.running then { s with handed := s.handed.tail } else s
  | .accept tokens =>
    if s.running && s.inserted && !s.closing && s.handed.isEmpty then
      acceptTokens { s with returned := s.returned ++ tokens.map Prod.fst } tokens
    else s
  | .written tc =>
    match s.store.get? tc with
    | none => s
    | some saved => { s with store := s.store.set tc { saved with written := true } }
  | .lost tc => { s with store := s.store.erase tc }
  | .reschedule cached =>
    if s.running && s.output.isEmpty && s.handed.isEmpty && !s.closing then s.waitAgain cached else s
  | .recover cached =>
    if s.running then
      { s.waitAgain cached with required := none, snapshots := Dict.empty, store := Dict.empty }
    else s
  | .cleanup works => if s.running && s.closing && s.handed.isEmpty then s.cleanupFinished cfg works else s

/-- A request that has just been scheduled, with part of its prompt found in the prefix cache. -/
def Start (s : Request τ) : Prop :=
  ∃ prompt thinks cached, s = { prompt, needsThinkPrefix := thinks, prefilled := min cached (prompt.length - 1) }

end Request

end FusionMlx.BoundarySnapshots
