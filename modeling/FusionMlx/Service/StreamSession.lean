import Mathlib.Data.List.Basic
import Mathlib.Algebra.GroupWithZero.Nat

/-!
# Resumable stream sessions

A producer task appends chunks to the buffer of its session; consumers replay
the buffer and then wait on the session's event. A session identifier is the
number of the session, as every start makes a new one. A step is what runs
between two suspension points of the event loop.
-/
namespace FusionMlx.StreamSessions

variable {P : Type} [DecidableEq P]

structure Limits where
  maxEvents : Nat := 200000
  maxBufferBytes : Nat := 64 * 1024 * 1024
  ttl : Nat := 3600
  maxSessionsPerPrincipal : Nat := 8

structure Event where
  value : Bool := false
  waiters : List Nat := []

def Event.set (e : Event) : Event := if e.value then e else { value := true, waiters := [] }

def Event.clear (e : Event) : Event := { e with value := false }

def Event.wait (e : Event) (consumer : Nat) : Event :=
  if e.value then e else { e with waiters := e.waiters ++ [consumer] }

def Event.leave (e : Event) (consumer : Nat) : Event := { e with waiters := e.waiters.filter (· ≠ consumer) }

inductive TaskPhase where
  | created | running | releasing | done
  deriving DecidableEq

structure ProducerTask where
  phase : TaskPhase := .created
  cancelRequested : Bool := false

structure StreamSession (P : Type) where
  principal : Option P
  createdAt : Nat
  events : List String := []
  complete : Bool := false
  finishReason : Option String := none
  error : Option String := none
  newData : Event := {}
  seq : Nat := 0
  bufferedBytes : Nat := 0
  producerTask : Option ProducerTask := none

namespace StreamSession

def cancelProducer (s : StreamSession P) : StreamSession P :=
  { s with producerTask := s.producerTask.map fun t => if t.phase = .done then t else { t with cancelRequested := true } }

def markComplete (s : StreamSession P) (finishReason : Option String) : StreamSession P :=
  { s with complete := true, finishReason := finishReason, newData := s.newData.set }

def markError (s : StreamSession P) (err : String) : StreamSession P :=
  { s with error := some err, complete := true, newData := s.newData.set }

def append (limits : Limits) (s : StreamSession P) (chunk : String) : StreamSession P :=
  if s.complete then s
  else
    let s := { s with
      events := s.events ++ [chunk]
      bufferedBytes := s.bufferedBytes + chunk.length
      seq := s.seq + 1
      newData := s.newData.set }
    if limits.maxEvents < s.events.length ∨ limits.maxBufferBytes < s.bufferedBytes then
      (s.markError ("stream buffer exceeded caps (events=" ++ toString s.events.length ++ " bytes=" ++
        toString s.bufferedBytes ++ ")")).cancelProducer
    else s

def expired (limits : Limits) (now : Nat) (s : StreamSession P) : Bool := limits.ttl < now - s.createdAt

def producerFinished (s : StreamSession P) : Bool := s.producerTask.any fun t => t.phase = .done

end StreamSession

inductive Failure where
  | http (statusCode : Nat) (detail : String)
  | exception (typeName text : String)

def Failure.message : Failure → String
  | .http statusCode detail => "http_" ++ toString statusCode ++ ": " ++ detail
  | .exception typeName text => typeName ++ ": " ++ text

/-- What the producer task does next. Its `finally` runs up to the release of the engine at once. -/
inductive ProducerStep where
  | first
  | chunk (text : String)
  | fails (failure : Failure)
  | ends
  | cancelled
  | released

namespace StreamSession

def setPhase (s : StreamSession P) (phase : TaskPhase) : StreamSession P :=
  { s with producerTask := s.producerTask.map fun t => { t with phase := phase } }

def finalize (s : StreamSession P) : StreamSession P :=
  (if s.complete then s else s.markError "producer ended without terminal mark").setPhase .releasing

/-- A step of `_producer`. A task that is cancelled before its first step never enters its body. -/
def produce (limits : Limits) (s : StreamSession P) (step : ProducerStep) : StreamSession P :=
  match s.producerTask with
  | none => s
  | some task =>
    match task.phase, step with
    | .created, .first => if task.cancelRequested then s.setPhase .done else s.setPhase .running
    | .running, .chunk text => s.append limits text
    | .running, .fails failure => (s.markError failure.message).finalize
    | .running, .ends => (s.markComplete (some "stop")).finalize
    | .running, .cancelled => s.finalize
    | .releasing, .released => s.setPhase .done
    | _, _ => s

end StreamSession

/-- Where `_resume_consumer` stands: about to run, at its `yield`, at `_new_data.wait()`, at an end. -/
inductive ConsumerPhase where
  | ready | yielding | waiting | returned | closed
  deriving DecidableEq

structure Consumer where
  session : Nat
  idx : Nat := 0
  output : List String := []
  phase : ConsumerPhase := .ready

def resumeFrom (s : StreamSession P) (id idx : Nat) (c : Consumer) : StreamSession P × Consumer :=
  match s.events[idx]? with
  | some event => (s, { c with idx := idx, output := c.output ++ [event], phase := .yielding })
  | none =>
    if s.complete then (s, { c with idx := idx, phase := .returned })
    else if s.producerFinished then (s, { c with idx := idx, phase := .returned })
    else ({ s with newData := s.newData.clear.wait id }, { c with idx := idx, phase := .waiting })

def resume (s : StreamSession P) (id : Nat) (c : Consumer) : StreamSession P × Consumer :=
  match c.phase with
  | .ready => resumeFrom s id c.idx c
  | .yielding => resumeFrom s id (c.idx + 1) c
  | .waiting => if id ∈ s.newData.waiters then (s, c) else resumeFrom s id c.idx c
  | .returned | .closed => (s, c)

/-- All sessions ever made, with the keys of the store in order, the starts that wait for their engine and
the consumers. `dropped` and `rejected` tell what has become of sessions. -/
structure State (P : Type) where
  now : Nat := 0
  sessions : List (StreamSession P) := []
  store : List Nat := []
  pending : List Nat := []
  consumers : List Consumer := []
  dropped : List Nat := []
  rejected : List Nat := []

namespace State

variable (limits : Limits) (s : State P)

def updateSession (id : Nat) (f : StreamSession P → StreamSession P) : State P :=
  { s with sessions := s.sessions.modify id f }

def expiredKey (id : Nat) : Bool := s.sessions[id]?.any (StreamSession.expired limits s.now)

def cancelAll (ids : List Nat) : State P := ids.foldl (fun s id => s.updateSession id StreamSession.cancelProducer) s

def reapExpired : State P :=
  { s.cancelAll (s.store.filter (s.expiredKey limits)) with store := s.store.filter fun id => !s.expiredKey limits id }

def keysOf (principal : Option P) : List Nat :=
  s.store.filter fun id => s.sessions[id]?.any fun session => session.principal = principal

def countForPrincipal (principal : Option P) : State P × Nat :=
  let s := s.reapExpired limits
  (s, (s.keysOf principal).length)

def create (principal : Option P) : State P :=
  let s := s.reapExpired limits
  { s with
    sessions := s.sessions ++ [{ principal := principal, createdAt := s.now }]
    store := s.store ++ [s.sessions.length] }

def drop (id : Nat) : State P :=
  if id ∈ s.store then
    { s.updateSession id StreamSession.cancelProducer with
      store := s.store.filter (· ≠ id), dropped := s.dropped ++ [id] }
  else s

def get (id : Nat) : State P × Option (StreamSession P) :=
  if id ∈ s.store then
    if s.expiredKey limits id then
      ({ s.updateSession id StreamSession.cancelProducer with store := s.store.filter (· ≠ id) }, none)
    else (s, s.sessions[id]?)
  else (s, none)

inductive Reply where
  | accepted
  | tail
  | error (status : Nat) (detail : String)

def start (principal : Option P) : State P × Reply :=
  let (s, count) := s.countForPrincipal limits principal
  if limits.maxSessionsPerPrincipal ≤ count then
    (s, .error 429 ("too many concurrent resumable streams (max " ++ toString limits.maxSessionsPerPrincipal ++ ")"))
  else ({ s.create limits principal with pending := s.pending ++ [s.sessions.length] }, .accepted)

/-- The resolution of the model or the engine raises: the handler ends there. -/
def resolveRaises (id : Nat) : State P :=
  if id ∈ s.pending then
    { s with pending := s.pending.filter (· ≠ id), rejected := s.rejected ++ [id] }
  else s

def resolveNone (modelName : String) (id : Nat) : State P × Reply :=
  if id ∈ s.pending then
    ({ s.drop id with pending := s.pending.filter (· ≠ id), rejected := s.rejected ++ [id] },
      .error 404 ("Model " ++ modelName ++ " not available"))
  else (s, .accepted)

def attach (id : Nat) : State P := { s with consumers := s.consumers ++ [{ session := id }] }

/-- The engine is there: the producer task is created, and the answer is the live tail or the identifier. -/
def launch (id : Nat) (returnSessionOnly : Bool) : State P × Reply :=
  if id ∈ s.pending then
    let s := { s.updateSession id (fun session => { session with producerTask := some {} }) with
      pending := s.pending.filter (· ≠ id) }
    if returnSessionOnly then (s, .accepted) else (s.attach id, .tail)
  else (s, .accepted)

def lookup (id : Nat) (principal : Option P) : State P × Reply :=
  match s.get limits id with
  | (s, none) => (s, .error 404 ("stream session " ++ toString id ++ " not found (expired or never started)"))
  | (s, some session) =>
    if session.principal ≠ none ∧ session.principal ≠ principal then
      (s, .error 403 "stream session does not belong to this caller")
    else (s.attach id, .tail)

def consume (i : Nat) : State P :=
  match s.consumers[i]? with
  | none => s
  | some c =>
    match s.sessions[c.session]? with
    | none => s
    | some session =>
      let (session, c') := resume session i c
      { s.updateSession c.session (fun _ => session) with consumers := s.consumers.set i c' }

def disconnect (i : Nat) : State P :=
  match s.consumers[i]? with
  | none => s
  | some c =>
    { s.updateSession c.session (fun session => { session with newData := session.newData.leave i }) with
      consumers := s.consumers.set i { c with phase := if c.phase = .returned then .returned else .closed } }

end State

inductive Action (P : Type) where
  | tick (time : Nat)
  | start (principal : Option P)
  | resolveRaises (id : Nat)
  | resolveNone (modelName : String) (id : Nat)
  | launch (id : Nat) (returnSessionOnly : Bool)
  | produce (id : Nat) (step : ProducerStep)
  | cancelTask (id : Nat)
  | lookup (id : Nat) (principal : Option P)
  | drop (id : Nat)
  | consume (consumer : Nat)
  | disconnect (consumer : Nat)

def step (limits : Limits) (s : State P) : Action P → State P
  | .tick time => { s with now := s.now + time }
  | .start principal => (s.start limits principal).1
  | .resolveRaises id => s.resolveRaises id
  | .resolveNone modelName id => (s.resolveNone modelName id).1
  | .launch id returnSessionOnly => (s.launch id returnSessionOnly).1
  | .produce id next => s.updateSession id fun session => session.produce limits next
  | .cancelTask id => s.updateSession id StreamSession.cancelProducer
  | .lookup id principal => (s.lookup limits id principal).1
  | .drop id => s.drop id
  | .consume i => s.consume i
  | .disconnect i => s.disconnect i

end FusionMlx.StreamSessions
