import FusionMlx.Support.SharedHoldings
import FusionMlx.Support.Runs

/-!
# The memory accounts of the engine pool

`EnginePool` of `pool/engine_pool.py`, one completed operation after the other:
what each does to the registry, to `_current_model_memory` and to what the
enforcer is told. A running `get_engine` is taken apart into its unloads, the
rounds of its admission and its load, since each unload in it is an operation
of its own. Names are registry keys, with aliases and repository names resolved.
-/
namespace FusionMlx.EngineMemory

open OrderedDict SharedHoldings

abbrev Key := List Char

/-- An `EngineEntry`, as far as the accounts read it. `pendingUnload` says that
`pending_unload_reason` is set; an adapter's entry has an `adapter_path`. -/
structure Entry where
  estimatedSize : Nat
  /-- `None` and 0 are the same to its readers. -/
  lastObservedSize : Nat := 0
  engine : Option Nat := none
  inUse : Nat := 0
  pendingUnload : Bool := false
  isPinned : Bool := false
  anePinned : Bool := false
  adapter : Bool := false

def Entry.hold (e : Entry) : Option (Nat × Nat) := e.engine.map fun x => (x, e.estimatedSize)

inductive Stage
  | idle
  /-- It unloads the stale engine of its entry and the adapters over the cap. -/
  | preparing (key : Key) (victims : List Key) (lease : Bool)
  /-- Its admission has so many rounds left. -/
  | admitting (key : Key) (left : Nat) (needed : Nat) (ceiling : Nat) (lease : Bool)
  | loading (key : Key) (lease : Bool)
  deriving DecidableEq

structure Removal where
  key : Key
  live : Bool

structure Admission where
  ceiling : Nat
  projected : Int

structure Pool where
  entries : Dict Key Entry := Dict.empty
  /-- `_current_model_memory`. -/
  currentModelMemory : Int := 0
  /-- What `update_loaded_model_bytes` was given. -/
  deltas : List Int := []
  /-- The engines that are running, busy, dead, and `DFlashEngine`s. -/
  running : Nat → Bool := fun _ => false
  active : Nat → Bool := fun _ => false
  dead : Nat → Bool := fun _ => false
  dflash : Nat → Bool := fun _ => false
  /-- No engine from here on has been seen. -/
  nextEngine : Nat := 0
  stage : Stage := .idle
  removed : List Removal := []
  started : List Admission := []

structure Config where
  kvHeadroom : Nat → Nat

namespace Pool

def attachedSize (s : Pool) : Nat := weight Entry.hold s.entries

def hasActiveRequests (s : Pool) (e : Entry) : Bool := e.engine.any s.active

def isBusy (s : Pool) (e : Entry) : Bool := 0 < e.inUse || s.hasActiveRequests e

def isLoading (s : Pool) (k : Key) : Bool :=
  match s.stage with
  | .idle => false
  | .preparing key _ _ | .admitting key _ _ _ _ | .loading key _ => key = k

def adapterPrefix (k : Key) : Key := k ++ "::lora::".toList

def live (s : Pool) (k : Key) : Bool :=
  match s.entries.get? k with
  | none => false
  | some e => e.engine.any s.running

def drop (s : Pool) (k : Key) : Pool :=
  { s with entries := s.entries.erase k, removed := s.removed ++ [⟨k, s.live k⟩] }

def update (s : Pool) (k : Key) (f : Entry → Entry) : Pool :=
  match s.entries.get? k with
  | none => s
  | some e => { s with entries := s.entries.set k (f e) }

def registerEntry (s : Pool) (k : Key) (engine : Option Nat) (size : Nat) : Pool :=
  let e := (s.entries.get? k).getD { estimatedSize := size }
  match engine with
  | none => { s with entries := s.entries.set k e }
  | some x =>
    { s with
      entries := s.entries.set k { e with engine := some x }
      currentModelMemory := s.currentModelMemory + e.estimatedSize
      nextEngine := max s.nextEngine (x + 1) }

inductive Stop
  /-- The coroutine is run to its end. -/
  | done
  /-- `stop` raises. -/
  | raised
  /-- A loop is running: a task is created, which runs later. -/
  | scheduled

def stopEngine (s : Pool) (x : Nat) : Stop → Pool
  | .done => { s with running := fun y => if y = x then false else s.running y }
  | _ => s

def unloadEngine (s : Pool) (k : Key) (stop : Stop) : Pool :=
  match s.entries.get? k with
  | none => s
  | some e =>
    match e.engine with
    | none => s
    | some x =>
      { s.stopEngine x stop with
        entries := s.entries.set k { e with engine := none }
        currentModelMemory := s.currentModelMemory - e.estimatedSize
        deltas := s.deltas ++ [-(e.estimatedSize : Int)] }

def unregisterEngine (s : Pool) (k : Key) (stop : Stop) : Pool :=
  match s.entries.get? k with
  | none => s
  | some e =>
    match e.engine with
    | none => s.drop k
    | some x =>
      { (s.stopEngine x stop).drop k with
        currentModelMemory := s.currentModelMemory - e.estimatedSize
        deltas := s.deltas ++ [-(e.estimatedSize : Int)] }

def clearEngine (x : Nat) (k : Key) (k' : Key) (e : Entry) : Entry :=
  if k' = k then { e with engine := none, pendingUnload := false }
  else if e.engine = some x then { e with engine := none }
  else e

def staleAdapter (k k' : Key) : Bool := (adapterPrefix k).isPrefixOf k'

/-- `_detach_engine`, `_remove_stale_adapters_locked` and the subtraction of `_settle_unloaded_engine`,
which the fast path without the barrier does as well. -/
def teardown (s : Pool) (k : Key) : Pool :=
  match s.entries.get? k with
  | none => s
  | some e =>
    match e.engine with
    | none => s
    | some x =>
      let s' := { s with
        entries := s.entries.mapValues (clearEngine x k)
        running := fun y => if y = x then false else s.running y
        active := fun y => if y = x then false else s.active y }
      { s' with
        entries := s'.entries.filterKeys fun k' => !staleAdapter k k'
        removed := s.removed ++ (s'.entries.keys.filter (staleAdapter k)).map fun k' => ⟨k', s'.live k'⟩
        currentModelMemory := s.currentModelMemory - e.estimatedSize }

def markPendingUnload (s : Pool) (k : Key) : Pool :=
  s.update k fun e => if e.engine.isNone || s.isLoading k || e.isPinned then e else { e with pendingUnload := true }

def defers (s : Pool) (k : Key) : Bool :=
  match s.entries.get? k with
  | none => false
  | some e => !s.isLoading k && 0 < e.inUse && e.engine.any fun x => !s.dead x

def unloadEngineAsync (s : Pool) (k : Key) : Pool := if s.defers k then s.markPendingUnload k else s.teardown k

def drains (s : Pool) (k : Key) : Bool :=
  (s.entries.get? k).any fun e =>
    e.engine.isSome && e.pendingUnload && !s.isLoading k && !e.isPinned && !s.isBusy e

def returnLease (s : Pool) (k : Key) : Pool := s.update k fun e => { e with inUse := e.inUse - 1 }

def releaseEngine (s : Pool) (k : Key) : Pool :=
  if (s.returnLease k).drains k then (s.returnLease k).teardown k else s.returnLease k

def idleUnpinned (s : Pool) (k : Key) : Bool :=
  (s.entries.get? k).any fun e => e.engine.isSome && !s.isLoading k && !e.isPinned && !s.isBusy e

def unloadIfIdleUnpinned (s : Pool) (k : Key) : Pool := if s.idleUnpinned k then s.teardown k else s

def unloadPendingIfIdle (s : Pool) (k : Key) : Pool := if s.drains k then s.teardown k else s

/-- What `_find_lru_victim` and its claim ask of a victim. Which of them is the least recently used is left open. -/
def evictable (s : Pool) (k : Key) : Bool :=
  (s.entries.get? k).any fun e =>
    e.engine.isSome && !e.isPinned && e.inUse == 0 && !e.anePinned && !s.hasActiveRequests e && !s.isLoading k

def evict (s : Pool) (k : Key) : Pool := if s.idleUnpinned k then s.teardown k else s

structure Found where
  key : Key
  size : Nat
  pinned : Bool

def mergeOne (entries : Dict Key Entry) (f : Found) : Dict Key Entry :=
  match entries.get? f.key with
  | some e =>
    if e.engine.isSome then entries.set f.key { e with isPinned := f.pinned }
    else entries.set f.key { estimatedSize := f.size, isPinned := f.pinned }
  | none => entries.set f.key { estimatedSize := f.size, isPinned := f.pinned }

def stale (found : List Found) (entries : Dict Key Entry) (k : Key) : Bool :=
  (entries.get? k).any (·.engine.isNone) && !(found.map (·.key)).contains k

def mergeDiscovered (s : Pool) (found : List Found) (removeStale : Bool) : Pool :=
  let entries := found.foldl mergeOne s.entries
  if removeStale then
    { s with
      entries := entries.filterKeys fun k => !stale found entries k
      removed := s.removed ++ (entries.keys.filter (stale found entries)).map fun k =>
        ⟨k, ({ s with entries } : Pool).live k⟩ }
  else { s with entries }

def hasLoaded (s : Pool) : Bool := s.entries.entries.any fun e => e.2.engine.isSome

def currentUsage (s : Pool) (activeMem phys : Nat) : Int :=
  let live : Int := max activeMem phys
  if s.hasLoaded || s.currentModelMemory ≤ live then max live s.currentModelMemory else live

def reconcile (s : Pool) (activeMem phys : Nat) : Pool :=
  let live : Int := max activeMem phys
  if s.hasLoaded || s.currentModelMemory ≤ live then s
  else { s with currentModelMemory := live, deltas := s.deltas ++ [-(s.currentModelMemory - live)] }

structure Call where
  key : Key
  /-- The base of an adapter's entry. -/
  base : Option Key := none
  lease : Bool := false
  /-- Other runtime settings, or another kind of engine, than the attached one has. -/
  variant : Bool := false
  /-- The adapters over the cap. -/
  victims : List Key := []

def getEngine (s : Pool) (c : Call) : Pool :=
  match s.entries.get? c.key with
  | none =>
    match c.base.bind s.entries.get? with
    | none => s
    | some base =>
      { s with
        entries := s.entries.set c.key { estimatedSize := base.estimatedSize, adapter := true }
        stage := .preparing c.key c.victims c.lease }
  | some e =>
    match e.engine with
    | none => { s with stage := .preparing c.key [] c.lease }
    | some x =>
      if s.dead x || !s.running x then { s with stage := .preparing c.key [c.key] c.lease }
      else if c.variant then
        if s.isBusy e then s else { s with stage := .preparing c.key [c.key] c.lease }
      else if c.lease then s.update c.key fun e => { e with inUse := e.inUse + 1 }
      else s

def startLoad (s : Pool) (k : Key) (lease : Bool) (admission : Option Admission) : Pool :=
  { s with stage := .loading k lease, started := s.started ++ admission.toList }

def prepare (cfg : Config) (s : Pool) (ceiling : Nat) : Pool :=
  match s.stage with
  | .preparing k (v :: victims) lease => { s.unloadEngineAsync v with stage := .preparing k victims lease }
  | .preparing k [] lease =>
    if ceiling = 0 then s.startLoad k lease none
    else
      let e := (s.entries.get? k).getD { estimatedSize := 0 }
      let size := if e.lastObservedSize = 0 then e.estimatedSize else e.lastObservedSize
      { s with stage := .admitting k 20 (size + cfg.kvHeadroom size) ceiling lease }
  | _ => s

def admission (s : Pool) (activeMem phys : Nat) (victim : Option Key) : Pool :=
  match s.stage with
  | .admitting k left needed ceiling lease =>
    let projected := s.currentUsage activeMem phys + needed
    let s' := s.reconcile activeMem phys
    if projected ≤ ceiling then s'.startLoad k lease (some ⟨ceiling, projected⟩)
    else
      match victim with
      | some v =>
        if s.evictable v then
          if left ≤ 1 then (s'.teardown v).startLoad k lease (some ⟨ceiling, projected⟩)
          else { s'.teardown v with stage := .admitting k (left - 1) needed ceiling lease }
        else s
      | none => { s' with stage := .idle }
  | _ => s

def otherDflash (s : Pool) (k : Key) : Bool :=
  match s.stage with
  | .loading key _ =>
    key ≠ k && (s.entries.get? k).any fun e => e.engine.any s.dflash && !e.isPinned && !s.isBusy e
  | _ => false

def unloadOtherDflash (s : Pool) (k : Key) : Pool := if s.otherDflash k then s.unloadEngineAsync k else s

inductive Outcome
  | loaded (observed : Nat) (dflash : Bool)
  /-- The tier budget rejects it. -/
  | rejected
  /-- It raises before the engine is attached. -/
  | failed
  /-- It raises between the attachment and the counting. -/
  | failedLate

def attach (s : Pool) (k : Key) (e : Entry) (dflash : Bool) : Pool :=
  { s with
    entries := s.entries.set k { e with engine := some s.nextEngine }
    running := fun y => if y = s.nextEngine then true else s.running y
    dflash := fun y => if y = s.nextEngine then dflash else s.dflash y
    nextEngine := s.nextEngine + 1
    stage := .idle }

/-- `_load_engine`. An adapter's entry that was never loaded goes when its load fails. -/
def loadEngine (s : Pool) (outcome : Outcome) : Pool :=
  match s.stage with
  | .loading k lease =>
    match s.entries.get? k with
    | none => { s with stage := .idle }
    | some e =>
      match outcome with
      | .loaded observed dflash =>
        let observed := if observed = 0 then e.estimatedSize else observed
        { s.attach k { e with lastObservedSize := observed, inUse := if lease then e.inUse + 1 else e.inUse } dflash with
          currentModelMemory := s.currentModelMemory + e.estimatedSize
          deltas := s.deltas ++ [(e.estimatedSize : Int)] }
      | .failed =>
        if e.adapter && e.engine.isNone && e.lastObservedSize == 0 then { s.drop k with stage := .idle }
        else { s with stage := .idle }
      | .rejected => { s with stage := .idle }
      | .failedLate => s.attach k e false
  | _ => s

end Pool

inductive Operation
  | register (key : Key) (engine : Nat) (size : Nat)
  | registerAudio (key : Key)
  | unload (key : Key) (stop : Pool.Stop)
  | unregister (key : Key) (stop : Pool.Stop)
  | unloadAsync (key : Key)
  | release (key : Key)
  | unloadIfIdle (key : Key)
  | unloadPending (key : Key)
  /-- The projection of a prefill or of `admit_media_job`. -/
  | project (activeMem phys : Nat)
  /-- Their victim; `admit_media_job` takes none that is pinned for the ANE. -/
  | evict (key : Key)
  | discover (found : List Pool.Found) (removeStale : Bool)
  | removeEntry (key : Key)
  | getEngine (call : Pool.Call)
  | prepare (ceiling : Nat)
  | admission (activeMem phys : Nat) (victim : Option Key)
  | unloadOther (key : Key)
  | load (outcome : Pool.Outcome)
  /-- An entry is pinned or not. -/
  | pin (key : Key) (pinned anePinned : Bool)
  /-- The enforcer marks an entry for unloading. -/
  | markPending (key : Key)
  /-- What an engine says of itself changes. -/
  | engine (x : Nat) (running active dead : Bool)

def Operation.internal : Operation → Bool
  | .project _ _ | .prepare _ | .admission _ _ _ | .unloadOther _ | .load _ | .engine _ _ _ _ => true
  | _ => false

namespace Pool

local instance : LawfulBEq (List Char) := inferInstance

def perform (cfg : Config) (s : Pool) : Operation → Pool
  | .register k x size => s.registerEntry k (some x) size
  | .registerAudio k => s.registerEntry k none 0
  | .unload k stop => s.unloadEngine k stop
  | .unregister k stop => s.unregisterEngine k stop
  | .unloadAsync k => s.unloadEngineAsync k
  | .release k => s.releaseEngine k
  | .unloadIfIdle k => s.unloadIfIdleUnpinned k
  | .unloadPending k => s.unloadPendingIfIdle k
  | .project activeMem phys => s.reconcile activeMem phys
  | .evict k => s.evict k
  | .discover found removeStale => s.mergeDiscovered found removeStale
  | .removeEntry k => if k ∈ s.entries.keys then s.drop k else s
  | .getEngine c => s.getEngine c
  | .prepare ceiling => s.prepare cfg ceiling
  | .admission activeMem phys victim => s.admission activeMem phys victim
  | .unloadOther k => s.unloadOtherDflash k
  | .load outcome => s.loadEngine outcome
  | .pin k pinned anePinned => s.update k fun e => { e with isPinned := pinned, anePinned := anePinned }
  | .markPending k => s.markPendingUnload k
  | .engine x running active dead =>
    { s with
      running := fun y => if y = x then running else s.running y
      active := fun y => if y = x then active else s.active y
      dead := fun y => if y = x then dead else s.dead y }

def next (cfg : Config) (s : Pool) (op : Operation) : Pool :=
  if s.stage ≠ .idle ∧ op.internal = false then s else s.perform cfg op

end Pool

end FusionMlx.EngineMemory
