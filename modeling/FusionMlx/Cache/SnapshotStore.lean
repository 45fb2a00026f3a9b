import FusionMlx.Support.OrderedDict
import FusionMlx.Support.Runs

/-!
# The boundary snapshot store and its writer

`BoundarySnapshotSSDStore` of `cache/boundary_snapshot_store.py`. A save buffers
a snapshot and queues an item; the writer thread works through the queue one
file operation or lock section after the other, and the sections of the calls
come in between. The prefix snapshots have files of their own and are left out.
-/
namespace FusionMlx.SnapshotStore

open OrderedDict

abbrev Key (ρ : Type) : Type := ρ × Nat

/-- An entry of `_pending_writes`: the raw tensors, and whether the extracted states are still with them. -/
structure Pending (α : Type) where
  content : α
  extracted : Bool

structure Item (ρ α : Type) where
  key : Key ρ
  content : α

inductive Stage
  | lookup
  | clearedCheck
  | check
  | skipPop
  | skipRemove
  | write
  | checkTemp
  | dropTemp
  | dropPending
  | rename
  | enforce
  | checkFile
  | dropFile
  | dropFolder
  | failed
  | failedCheck
  | dec (final : Bool)
  | finish
  | release

inductive Writer (ρ α : Type)
  | idle
  | hand (item : Item ρ α)
  | busy (item : Item ρ α) (stage : Stage)

inductive Caller (ρ α : Type)
  | idle
  | saving (key : Key ρ) (content : α)
  | putting (key : Key ρ) (content : α)
  | dropping (key : Key ρ)
  | loading (key : Key ρ)
  | cleaning (rid : ρ)
  | removing (rid : ρ) (acquired : Bool)
  | releasing (rid : ρ)
  | unmarking (rid : ρ)
  | draining
  | waitingAll
  | clearing (acquired : Bool)
  | unmarkingAll (acquired : Bool)
  | removingAll (acquired : Bool)
  | releasingAll

inductive Event (ρ α : Type)
  /-- A save begins. -/
  | begun (key : Key ρ)
  /-- A save returns `True`. -/
  | saved (key : Key ρ) (content : α)
  | loaded (key : Key ρ) (result : Option α)
  /-- `cleanup_request` is called. -/
  | cleaned (rid : ρ)
  /-- `cleanup_request` returns, and its wait did not time out. -/
  | swept (rid : ρ)
  | cleanedAll
  | written (key : Key ρ)
  | failed (key : Key ρ)
  | evicted (key : Key ρ)

structure State (ρ α : Type) where
  pending : Dict (Key ρ) (Pending α) := Dict.empty
  queue : List (Item ρ α) := []
  /-- `_cancelled_requests`: the count and the time it was created. -/
  cancelled : ρ → Option (Nat × Nat) := fun _ => none
  files : Key ρ → Option α := fun _ => none
  temps : Key ρ → Bool := fun _ => false
  now : Nat := 0
  writer : Writer ρ α := .idle
  caller : Caller ρ α := .idle
  /-- The last first. -/
  events : List (Event ρ α) := []

variable {ρ α : Type} [DecidableEq ρ]

def defaultMaxPendingWrites : Nat := 128

def cancelledTtl : Nat := 60 * 10 ^ 9

namespace State

def log (s : State ρ α) (e : Event ρ α) : State ρ α := { s with events := e :: s.events }

def setCancelled (s : State ρ α) (rid : ρ) (entry : Option (Nat × Nat)) : State ρ α :=
  { s with cancelled := fun r => if r = rid then entry else s.cancelled r }

def setFile (s : State ρ α) (key : Key ρ) (content : Option α) : State ρ α :=
  { s with files := fun k => if k = key then content else s.files k }

def setTemp (s : State ρ α) (key : Key ρ) (there : Bool) : State ρ α :=
  { s with temps := fun k => if k = key then there else s.temps k }

def popPending (s : State ρ α) (key : Key ρ) : State ρ α := { s with pending := s.pending.erase key }

def removeFolder (s : State ρ α) (rid : ρ) : State ρ α :=
  { s with files := fun k => if k.1 = rid then none else s.files k
           temps := fun k => if k.1 = rid then false else s.temps k }

def expired (s : State ρ α) (rid : ρ) : Bool :=
  match s.cancelled rid with
  | some (_, created) => cancelledTtl < s.now - created
  | none => false

def isCancelled (s : State ρ α) (rid : ρ) : Bool := (s.cancelled rid).isSome && !s.expired rid

def expire (s : State ρ α) (rid : ρ) : State ρ α := if s.expired rid then s.setCancelled rid none else s

def decCancelled (s : State ρ α) (rid : ρ) : State ρ α :=
  match s.cancelled rid with
  | some (count, created) => s.setCancelled rid (if count ≤ 1 then none else some (count - 1, created))
  | none => s

def pendingOf (s : State ρ α) (rid : ρ) : List (Key ρ) := s.pending.keys.filter (fun k => k.1 = rid)

def markCancelled (s : State ρ α) (rid : ρ) : State ρ α :=
  let keys := s.pendingOf rid
  let s' := { s with pending := keys.foldl Dict.erase s.pending }
  if keys.length = 0 then s'
  else
    match s.cancelled rid with
    | none => s'.setCancelled rid (some (keys.length, s.now))
    | some (count, created) => s'.setCancelled rid (some (count + keys.length, created))

end State

def State.stage (s : State ρ α) (item : Item ρ α) (stage : Stage) : State ρ α := { s with writer := .busy item stage }

def State.branch (s : State ρ α) (item : Item ρ α) (yes no : Stage) : State ρ α :=
  (s.expire item.key.1).stage item (if s.isCancelled item.key.1 then yes else no)

/-- `_process_write_item`, one step: `ok` is whether a write succeeds, `left` whether a failed one
leaves a temporary file. -/
def processWriteItem (s : State ρ α) (i : Item ρ α) (ok left : Bool) : Stage → State ρ α
  | .lookup => s.stage i (if (s.pending.get? i.key).isSome then .check else .clearedCheck)
  | .clearedCheck => s.branch i (.dec false) .release
  | .check => s.branch i .skipPop .write
  | .skipPop => (s.popPending i.key).stage i .skipRemove
  | .skipRemove => (s.removeFolder i.key.1).stage i (.dec false)
  | .write =>
    if ok then (s.setTemp i.key true).stage i .checkTemp else (s.setTemp i.key left).stage i .failed
  | .checkTemp => s.branch i .dropTemp .rename
  | .dropTemp => (s.setTemp i.key false).stage i .dropPending
  | .dropPending => (s.popPending i.key).stage i (.dec true)
  | .rename =>
    if ok && s.temps i.key then
      (((s.setTemp i.key false).setFile i.key (some i.content)).log (.written i.key)).stage i .enforce
    else s.stage i .failed
  | .enforce => s.stage i .checkFile
  | .checkFile => s.branch i .dropFile .finish
  | .dropFile => (s.setFile i.key none).stage i .dropFolder
  | .dropFolder => (s.removeFolder i.key.1).stage i (.dec true)
  | .failed => (((s.setTemp i.key false).setFile i.key none).log (.failed i.key)).stage i .failedCheck
  | .failedCheck => s.branch i (.dec true) .finish
  | .dec final => (s.decCancelled i.key.1).stage i (if final then .finish else .release)
  | .finish =>
    match s.pending.get? i.key with
    | none => s.stage i .release
    | some e =>
      if (s.files i.key).isSome then (s.popPending i.key).stage i .release
      else State.stage { s with pending := s.pending.set i.key { e with extracted := false } } i .release
  | .release => { s with writer := .idle }

def Caller.holds : Caller ρ α → Bool
  | .removing _ acquired => acquired
  | .releasing _ => true
  | .clearing acquired => acquired
  | .unmarkingAll acquired => acquired
  | .removingAll acquired => acquired
  | .releasingAll => true
  | _ => false

def Writer.holds : Writer ρ α → Bool
  | .busy _ _ => true
  | _ => false

def callerStep (s : State ρ α) : State ρ α :=
  match s.caller with
  | .saving key content =>
    if defaultMaxPendingWrites ≤ s.queue.length then { s with caller := .dropping key }
    else { s with caller := .putting key content }
  | .putting key content =>
    if s.queue.length < defaultMaxPendingWrites then
      State.log { s with queue := s.queue ++ [⟨key, content⟩], caller := .idle } (.saved key content)
    else { s with caller := .dropping key }
  | .dropping key => { s.popPending key with caller := .idle }
  | .loading key => State.log { s with caller := .idle } (.loaded key (s.files key))
  | .removing rid acquired => { s.removeFolder rid with caller := if acquired then .releasing rid else .idle }
  | .releasing rid => { s with caller := .unmarking rid }
  | .unmarking rid => State.log { s.setCancelled rid none with caller := .idle } (.swept rid)
  | .draining =>
    match s.queue with
    | [] => { s with caller := .waitingAll }
    | _ :: rest => { s with queue := rest }
  | .clearing acquired => { s with pending := Dict.empty, caller := .unmarkingAll acquired }
  | .unmarkingAll acquired =>
    { s with cancelled := if acquired then fun _ => none else s.cancelled, caller := .removingAll acquired }
  | .removingAll acquired =>
    { s with files := fun _ => none, temps := fun _ => false, caller := if acquired then .releasingAll else .idle }
  | .releasingAll => { s with caller := .idle }
  | .idle | .cleaning _ | .waitingAll => s

/-- `load`, to the end of its lock section. A snapshot without tensors is not rebuilt from raw bytes. -/
def loadPending (hasTensors : α → Bool) (s : State ρ α) (key : Key ρ) : State ρ α :=
  match s.pending.get? key with
  | some e =>
    if e.extracted || hasTensors e.content then s.log (.loaded key (some e.content))
    else { s with caller := .loading key }
  | none => { s with caller := .loading key }

inductive Act (ρ α : Type)
  | tick (time : Nat)
  | save (key : Key ρ) (content : α)
  | load (key : Key ρ)
  | cleanupRequest (rid : ρ)
  | cleanupAll
  | caller
  | acquire
  | timeout
  | take
  | writer (ok left : Bool)
  | evict (key : Key ρ)

def next (hasTensors : α → Bool) (s : State ρ α) : Act ρ α → State ρ α
  | .tick time => { s with now := s.now + time }
  | .save key content =>
    match s.caller with
    | .idle =>
      State.log { s with pending := s.pending.set key ⟨content, true⟩, caller := .saving key content } (.begun key)
    | _ => s
  | .load key =>
    match s.caller with
    | .idle => loadPending hasTensors s key
    | _ => s
  | .cleanupRequest rid =>
    match s.caller with
    | .idle => State.log { s.markCancelled rid with caller := .cleaning rid } (.cleaned rid)
    | _ => s
  | .cleanupAll =>
    match s.caller with
    | .idle => State.log { s with caller := .draining } .cleanedAll
    | _ => s
  | .caller => callerStep s
  | .acquire =>
    match s.caller with
    | .cleaning rid => if s.writer.holds then s else { s with caller := .removing rid true }
    | .waitingAll => if s.writer.holds then s else { s with caller := .clearing true }
    | _ => s
  | .timeout =>
    match s.caller with
    | .cleaning rid => if s.writer.holds then { s with caller := .removing rid false } else s
    | .waitingAll => if s.writer.holds then { s with caller := .clearing false } else s
    | _ => s
  | .take =>
    match s.writer, s.queue with
    | .idle, i :: rest => { s with writer := .hand i, queue := rest }
    | _, _ => s
  | .writer ok left =>
    match s.writer with
    | .hand i => if s.caller.holds then s else s.stage i .lookup
    | .busy i stage => processWriteItem s i ok left stage
    | .idle => s
  | .evict key =>
    match s.writer, s.files key with
    | .busy _ .enforce, some _ => (s.setFile key none).log (.evicted key)
    | _, _ => s

def current (key : Key ρ) : List (Event ρ α) → Option α
  | [] => none
  | .saved k content :: past => if k = key then some content else current key past
  | .cleaned rid :: past => if key.1 = rid then none else current key past
  | .cleanedAll :: _ => none
  | _ :: past => current key past

def writtenSince (key : Key ρ) : List (Event ρ α) → Bool
  | [] => false
  | .saved k _ :: past => if k = key then false else writtenSince key past
  | .written k :: past => if k = key then true else writtenSince key past
  | _ :: past => writtenSince key past

def lost (key : Key ρ) : List (Event ρ α) → Bool
  | [] => false
  | .saved k _ :: past => if k = key then false else lost key past
  | .failed k :: past => if k = key then true else lost key past
  | .evicted k :: past => if k = key then writtenSince key past || lost key past else lost key past
  | _ :: past => lost key past

/-- `cleanup_request` has returned without a timeout, and no save of the request has begun since. -/
def sweptLast (rid : ρ) : List (Event ρ α) → Bool
  | [] => false
  | .swept r :: past => if r = rid then true else sweptLast rid past
  | .begun k :: past => if k.1 = rid then false else sweptLast rid past
  | _ :: past => sweptLast rid past

def Caller.clearsMarks (rid : ρ) : Caller ρ α → Prop
  | .cleaning r | .removing r true | .releasing r | .unmarking r => r = rid
  | .draining | .waitingAll | .clearing true | .unmarkingAll true => True
  | _ => False

/-- A load has returned nothing or the current snapshot, and that one unless it was lost; a swept
request has no files; with nothing to write, a mark is about to be taken away. -/
def MapLike (s : State ρ α) : Prop :=
  (∀ key result past, s.events = .loaded key result :: past →
      (result = none ∨ result = current key past) ∧
        (current key past ≠ none → lost key past = false → result = current key past)) ∧
    (∀ rid tc, sweptLast rid s.events = true → s.files (rid, tc) = none ∧ s.temps (rid, tc) = false) ∧
    ∀ rid, s.queue = [] → s.writer = .idle → s.cancelled rid ≠ none → s.caller.clearsMarks rid

end FusionMlx.SnapshotStore
